-- SUMMARY: The finalized_checkpoint events of every run on one line: exact, and the last one is up to date.
import Ethertest.Guarantees.Finality
import Ethertest.Log.Node

/-!
# Announcements of finality

As long as the head is not moved to another line, an operation emits a
`finalized_checkpoint` event exactly if the finalized block or its epoch is another one
after it, and the last event names the block that is finalized now.
-/

namespace Ethertest

open Relation (ReflTransGen)

namespace Ledger

/-- The `finalized_checkpoint` events so far. -/
def checkpointEvents (l : Ledger) : List Event := l.emitted.filter fun e => e.type = .finalizedCheckpoint

variable (E : Env) (l : Ledger)

/-- The hash of the finalized block, and the epoch of the finalized slot. -/
def finalizedMark : Hash × Nat :=
  (E.hash (l.resolveSyntheticFinality E l.slot).finalized,
    (l.resolveSyntheticFinality E l.slot).finalizedSlot / E.cfg.chain.slotsPerEpoch)

/-- The event names the finalized block and its epoch. -/
def NamesFinalized (e : Event) : Prop :=
  e.blockHash = E.hash (l.resolveSyntheticFinality E l.slot).finalized ∧
    e.blockNumber = (l.resolveSyntheticFinality E l.slot).finalized.number ∧
    e.slot / E.cfg.chain.slotsPerEpoch =
      (l.resolveSyntheticFinality E l.slot).finalizedSlot / E.cfg.chain.slotsPerEpoch

variable {E l}

theorem announced_eq : l.observer.announced =
    l.checkpointEvents.map fun e => (e.blockHash, e.blockNumber, e.slot) := rfl

theorem Inv.finalizedMark_eq (I : l.Inv E) (hfrozen : ∀ slot ∈ l.frozen, slot ≤ l.slot) :
    l.finalizedMark E = l.observer.mark E := by
  rw [finalizedMark, I.finalized_eq hfrozen, I.finalizedSlot_eq hfrozen]
  rfl

theorem Inv.namesFinalized (I : l.Inv E) (hfrozen : ∀ slot ∈ l.frozen, slot ≤ l.slot) (N : l.observer.Named E)
    {e : Event} (he : l.checkpointEvents.getLast? = some e) : l.NamesFinalized E e := by
  rw [NamesFinalized, I.finalized_eq hfrozen, I.finalizedSlot_eq hfrozen]
  refine N (e.blockHash, e.blockNumber, e.slot) ?_
  rw [announced_eq, List.getLast?_map, he]
  rfl

end Ledger

/-- Events are only ever appended. -/
theorem Chain.batches_step {E : Env} {c c' : Chain} (h : Step E c c') : ∃ more, c'.batches = c.batches ++ more := by
  cases h with
  | extend => exact ⟨_, rfl⟩
  | branch => exact ⟨_, rfl⟩
  | move => exact ⟨_, rfl⟩
  | announce => exact ⟨_, rfl⟩
  | _ => exact ⟨[], (List.append_nil _).symm⟩

theorem Chain.batches_run {E : Env} {c c' : Chain} (h : ReflTransGen (Step E) c c') :
    ∃ more, c'.batches = c.batches ++ more := by
  induction h with
  | refl => exact ⟨[], (List.append_nil _).symm⟩
  | tail _ hstep ih =>
    obtain ⟨earlier, hearlier⟩ := ih
    obtain ⟨later, hlater⟩ := batches_step hstep
    exact ⟨earlier ++ later, by rw [hlater, hearlier, List.append_assoc]⟩

namespace Env

variable {E : Env} {n n' : Node E.geth.State}

private theorem checkpointEvents_run {Q : Guard E.geth.State} (hE : E.Lawful) (I : n.toLedger.Inv E)
    (h : ReflTransGen (E.Move Q) n n') : ∃ new, n'.checkpointEvents = n.checkpointEvents ++ new := by
  obtain ⟨more, hmore⟩ := Chain.batches_run (Move.run_simulates hE I h)
  have hbatches : n'.history.batches = n.history.batches ++ more := hmore
  exact ⟨more.flatten.filter fun e => e.type = .finalizedCheckpoint, by
    simp only [Ledger.checkpointEvents, Ledger.emitted, hbatches, List.flatten_append, List.filter_append]⟩

/-- A run on one line emits an event exactly if its mark is another one at its end. -/
theorem run_emits {pausing : Bool → Prop} (hE : E.Lawful) (I : n.toLedger.Inv E)
    (hfrozen : ∀ slot ∈ n.frozen, slot ≤ n.slot) (h : ReflTransGen (E.Move (E.onLine pausing)) n n') :
    ∃ new, n'.checkpointEvents = n.checkpointEvents ++ new ∧
      (new ≠ [] ↔ n'.finalizedMark E ≠ n.finalizedMark E) := by
  obtain ⟨new, hnew⟩ := checkpointEvents_run hE I h
  obtain ⟨announced, hannounced, hiff⟩ :=
    Observer.run_announced hE (I.observer_sound hfrozen) (run_observes hE I hfrozen h)
  rw [Ledger.announced_eq, Ledger.announced_eq, hnew, List.map_append] at hannounced
  obtain rfl := List.append_cancel_left hannounced
  refine ⟨new, hnew, ?_⟩
  rw [(Move.run_inv hE I h).finalizedMark_eq (run_frozen_le hE I hfrozen h), I.finalizedMark_eq hfrozen, Ne, Ne,
    ← hiff, List.map_eq_nil_iff]

theorem ReachableBy.named (hE : E.Lawful) (h : E.ReachableBy (fun _ c => c.op.switches = false) n) :
    n.observer.Named E := by
  refine (h.invariant (Q := E.onLine fun _ => True)
    (X := fun n => n.observer.Named E ∧ ∀ slot ∈ n.frozen, slot ≤ n.slot) hE
    (fun hc => guarded_onLine _ hc (fun _ => trivial) fun _ => trivial) (fun hstart => ?_) ?_).1
  · obtain ⟨projection, record, -, -, hledger⟩ := newNode_spec hstart
    rw [hledger]
    exact ⟨nofun, nofun⟩
  · rintro m m' I ⟨N, hfrozen⟩ hmove
    refine ⟨?_, hmove.frozen_le hE I hfrozen⟩
    cases hmove.observes hE I hfrozen with
    | same observer => exact observer ▸ N
    | onward step => exact step.named hE N
    | pause allowed step => exact step.named hE N
    | resume allowed step => exact step.named hE N
    | moved allowed => exact allowed.elim

end Env

/-- In every run without a switch of the head, the last `finalized_checkpoint` event names
what is finalized, and an operation emits one exactly if that changes. -/
theorem reachable_announced {E : Env} (hE : E.Lawful) {n : Node E.geth.State}
    (h : E.ReachableBy (fun _ c => c.op.switches = false) n) :
    (∀ e, n.checkpointEvents.getLast? = some e → n.NamesFinalized E e) ∧
    ∀ c : Command, c.op.switches = false → ∃ new,
      (E.step n c).checkpointEvents = n.checkpointEvents ++ new ∧
        (new ≠ [] ↔ (E.step n c).finalizedMark E ≠ n.finalizedMark E) := by
  have I := h.inv hE
  have hfrozen := h.frozen_le hE
  refine ⟨fun e he => I.namesFinalized hfrozen (h.named hE) he, fun c hc => ?_⟩
  exact Env.run_emits hE I hfrozen
    (Env.moves_step (Env.guarded_onLine (fun _ => True) hc (fun _ => trivial) fun _ => trivial))

theorem reachable_announced_reference :
    let n := Reference.run [⟨.mine 1 false, none⟩, ⟨.missSlots 24, none⟩]
    n.checkpointEvents ≠ [] ∧ (∀ e, n.checkpointEvents.getLast? = some e → n.NamesFinalized Reference.env e) ∧
      ∃ new, (Reference.env.step n ⟨.pauseFinality, none⟩).checkpointEvents = n.checkpointEvents ++ new ∧
        (new ≠ [] ↔
          (Reference.env.step n ⟨.pauseFinality, none⟩).finalizedMark Reference.env ≠
            n.finalizedMark Reference.env) := by
  have hreachable : Reference.env.ReachableBy (fun _ c => c.op.switches = false)
      (Reference.run [⟨.mine 1 false, none⟩, ⟨.missSlots 24, none⟩]) := Reference.reachableBy_run (by decide +kernel)
  have h := reachable_announced Reference.lawful hreachable
  exact ⟨by decide +kernel, h.1, h.2 ⟨.pauseFinality, none⟩ rfl⟩

end Ethertest
