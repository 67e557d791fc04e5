-- SUMMARY: A node's finality is that of an observer of its canonical chain, and every move is one of the observer.
import Ethertest.Chain.Observer
import Ethertest.Refinement.Canonical

/-!
# The observer of a node

The search through the slot index finds the latest canonical block. The event of a
finalized block is computed before its operation commits, from the old index; it is the
announcement that the observer makes after the commit.
-/

namespace Ethertest

/-! ## Announcements -/

/-- The announcements among events. -/
def announcementsOf (events : List Event) : List (Hash × Nat × Nat) :=
  (events.filter fun e => e.type = .finalizedCheckpoint).map fun e => (e.blockHash, e.blockNumber, e.slot)

theorem announcementsOf_append (a b : List Event) :
    announcementsOf (a ++ b) = announcementsOf a ++ announcementsOf b := by
  simp [announcementsOf]

private theorem announcementsOf_unnumbered (events : List Event) :
    announcementsOf (events.map EventLog.unnumbered) = announcementsOf events := by
  rw [announcementsOf, List.filter_map, List.map_map]
  rfl

variable {events : List Event}

theorem announcementsOf_plan {log : EventLog} {plan : EventPlan} (h : log.plan events = .ok plan) :
    announcementsOf plan.events = announcementsOf events := by
  rw [← announcementsOf_unnumbered, EventLog.plan_events h, announcementsOf_unnumbered]

theorem announcementsOf_cons {e : Event} (h : e.type ≠ .finalizedCheckpoint) :
    announcementsOf (e :: events) = announcementsOf events := by
  simp [announcementsOf, h]

theorem announcementsOf_transition (E : Env) (previous next : FinalityResolution) :
    announcementsOf (Ledger.finalizedEventForTransition E previous next) =
      if (E.hash previous.finalized, previous.finalizedSlot / E.slotsPerEpoch) =
          (E.hash next.finalized, next.finalizedSlot / E.slotsPerEpoch) then []
      else [(E.hash next.finalized, next.finalized.number, next.finalizedSlot)] := by
  simp only [Ledger.finalizedEventForTransition, Prod.mk.injEq]
  split <;> rfl

/-! ## The observer -/

/-- The canonical chain, head first. -/
def Chain.canonicalLine (c : Chain) : List Block := (c.blocks c.head).elim [] c.line

/-- The observer of a chain. -/
def Chain.observer (c : Chain) (frozen : Option Nat) : Observer where
  line := c.canonicalLine
  slot := c.slot
  frozen := frozen
  announced := announcementsOf c.batches.flatten

namespace Ledger

variable {E : Env}

/-- The slot at which finality was paused. -/
def frozen (l : Ledger) : Option Nat := if l.finalityPaused then some l.finalitySlot else none

def observer (l : Ledger) : Observer := l.chain.observer l.frozen

variable {l : Ledger}

/-- The observer of a ledger that satisfies the invariant. -/
theorem Inv.observer_sound (I : l.Inv E) (h : ∀ slot ∈ l.frozen, slot ≤ l.slot) : l.observer.Sound E := by
  obtain ⟨head, hcurrent, hhead⟩ := I.exists_head
  have W := I.chain.wellFormed
  have T := I.chain.timeline
  have hline : l.observer.line = l.chain.line head := canonicalLine_eq hcurrent
  constructor
  case slots =>
      rw [hline]
      exact T.line_pairwise W hhead.1
  case numbers =>
      rw [hline]
      exact W.tree.line_pairwise W.tree.number_lt hhead.1
  case genesis =>
      rw [hline]
      exact W.tree.root_mem_line hhead.1
  case now =>
      intro b hb
      rw [hline] at hb
      exact (T.slot_le_of_mem_line W hhead.1 hb).trans (T.now hhead)
  case frozen => exact h

namespace Inv

variable (I : l.Inv E)
include I

/-- The slot index names the canonical blocks. -/
theorem indexedBlock_eq_some {slot : Nat} {b : Block} :
    l.indexedBlock slot = some b ↔ b ∈ l.db.canonicalLine ∧ E.slotAt b.time = slot := by
  obtain ⟨head, hcurrent, hhead⟩ := I.exists_head
  have hindex := I.chain.timeline.index hhead
  rw [← canonicalLine_eq hcurrent] at hindex
  constructor
  · intro h
    obtain ⟨hash, hget, hfound⟩ := Option.bind_eq_some_iff.mp h
    obtain ⟨a, ha, rfl, hslot⟩ := (hindex slot hash).mp hget
    have hstored : l.db.blockByHash (E.hash a) = some a := I.mem_of_mem_canonicalLine ha
    obtain rfl : a = b := Option.some.inj (hstored.symm.trans (Option.filter_eq_some_iff.mp hfound).1)
    exact ⟨ha, hslot⟩
  · rintro ⟨hb, hslot⟩
    have hstored : l.db.blockByHash (E.hash b) = some b := I.mem_of_mem_canonicalLine hb
    have hget : l.canonicalBlockBySlot[slot]? = some (E.hash b) := (hindex slot _).mpr ⟨b, hb, rfl, hslot⟩
    simp [indexedBlock, hget, hstored, Option.filter_some, I.canonicalHash_of_mem hb]

/-- The search down the slot index ends at the latest canonical block. -/
theorem blockAtOrBeforeSlot_eq (slot : Nat) :
    l.blockAtOrBeforeSlot E slot = E.latestAt l.db.canonicalLine slot := by
  have S : Descending (fun b => E.slotAt b.time) l.db.canonicalLine := by
    obtain ⟨head, hcurrent, hhead⟩ := I.exists_head
    rw [canonicalLine_eq hcurrent]
    exact I.chain.timeline.line_pairwise I.chain.wellFormed hhead.1
  -- a block in the slot itself is the latest one
  have hhere {slot : Nat} {b : Block} (h : l.indexedBlock slot = some b) :
      latest (fun b => E.slotAt b.time) l.db.canonicalLine slot = some b := by
    obtain ⟨hb, rfl⟩ := I.indexedBlock_eq_some.mp h
    exact (latest_eq_some S).mpr ⟨hb, le_rfl, fun _ _ hle => hle⟩
  induction slot with
  | zero =>
    cases h : l.indexedBlock 0 with
    | some b => rw [blockAtOrBeforeSlot, h, Env.latestAt, hhere h]
    | none =>
      rw [blockAtOrBeforeSlot, h, Env.latestAt]
      cases hlatest : latest (fun b => E.slotAt b.time) l.db.canonicalLine 0 with
      | none => rfl
      | some b =>
        obtain ⟨hb, hslot⟩ := mem_of_latest hlatest
        rw [I.indexedBlock_eq_some.mpr ⟨hb, Nat.le_zero.mp hslot⟩] at h
        cases h
  | succ slot ih =>
    cases h : l.indexedBlock (slot + 1) with
    | some b =>
      rw [blockAtOrBeforeSlot, h, Env.latestAt, hhere h]
      rfl
    | none =>
      rw [blockAtOrBeforeSlot, h, Option.getD_none, ih, Env.latestAt, Env.latestAt, latest, latest]
      congr 1
      refine List.find?_congr fun b hb => ?_
      have hne : E.slotAt b.time ≠ slot + 1 := fun heq => by
        rw [I.indexedBlock_eq_some.mpr ⟨hb, heq⟩] at h
        cases h
      simp only [decide_eq_decide]
      omega

/-- The resolution from any slot. -/
theorem resolveSyntheticFinalityAt_eq (slot : Nat) : l.resolveSyntheticFinalityAt E slot =
    { headSlot := slot
      safeSlot := slot - E.slotsPerEpoch
      finalizedSlot := slot - 2 * E.slotsPerEpoch
      safe := E.latestAt l.db.canonicalLine (slot - E.slotsPerEpoch)
      finalized := E.latestAt l.db.canonicalLine (slot - 2 * E.slotsPerEpoch) } := by
  have hlag : 2 * E.slotsPerEpoch % 2 ^ 64 = 2 * E.slotsPerEpoch :=
    Nat.mod_eq_of_lt (Config.slotsPerEpoch_bounds E.accepted).2
  have hsub (lag : Nat) : subtractSlots slot lag = slot - lag := by
    unfold subtractSlots
    split <;> omega
  simp only [resolveSyntheticFinalityAt, hlag, hsub, I.blockAtOrBeforeSlot_eq]

/-- The resolution of a node, before the event of a step to `slot`: the observer's, as it
would be at that slot. -/
theorem resolveSyntheticFinality_eq (hfrozen : ∀ slot ∈ l.frozen, slot ≤ l.slot) {slot : Nat} (hslot : l.slot ≤ slot) :
    l.resolveSyntheticFinality E slot =
      let o : Observer := { l.observer with slot := slot }
      { headSlot := o.seen, safeSlot := o.safeSlot E, finalizedSlot := o.finalizedSlot E,
        safe := o.safe E, finalized := o.finalized E } := by
  have hseen : l.syntheticFinalitySlot slot = ({ l.observer with slot := slot } : Observer).seen := by
    change _ = l.frozen.getD slot
    unfold syntheticFinalitySlot frozen
    by_cases hpaused : l.finalityPaused
    · have := hfrozen l.finalitySlot (by simp [frozen, hpaused])
      simp only [hpaused, true_and, if_true, Option.getD_some]
      split <;> omega
    · simp [hpaused]
  rw [resolveSyntheticFinality, I.resolveSyntheticFinalityAt_eq, hseen]
  rfl

end Inv

end Ledger

/-! ## Moves -/

namespace Env

variable {E : Env} {Q : Guard E.geth.State} {n n' : Node E.geth.State}

variable {x : Extension} {control : Bool} {batch events : List Event} {c : Chain} {o : Observer}
  {apply : Node E.geth.State → Node E.geth.State} {w : Switch} {put : KV}

/-- The line after a block on the head. -/
theorem canonicalLine_extend (hE : E.Lawful) (W : Chain.WellFormed E n.chain)
    (p : Planned.OnHead E n x control) {remaining : ExecutionRequestQueue} :
    (n.chain.extend E (x.entry control) remaining batch).canonicalLine = x.block :: n.chain.canonicalLine := by
  have hself := Chain.line_put_self hE W p.sound
  have hparent : n.chain.blocks n.chain.head = some x.parent := by
    rw [p.head]
    exact p.sound.parent_mem
  have hblock : (n.chain.put E (x.entry control)).blocks (E.hash x.block) = some x.block :=
    Function.update_self ..
  change ((n.chain.put E (x.entry control)).blocks (E.hash x.block)).elim [] (n.chain.put E (x.entry control)).line = _
  rw [hblock, Chain.canonicalLine, hparent]
  exact hself

/-- The line after a block on a branch. -/
theorem canonicalLine_put (hE : E.Lawful) (W : Chain.WellFormed E c) {e : Entry} :
    (c.put E e).canonicalLine = c.canonicalLine := by
  obtain ⟨head, hmem, hhash⟩ := W.exists_head
  have hblocks : c.blocks c.head = some head := hhash ▸ hmem
  have hput : (c.put E e).blocks c.head = some head := hhash ▸ (Chain.mem_put hE).mpr (.inl hmem)
  change ((c.put E e).blocks c.head).elim [] (c.put E e).line = _
  rw [hput, Chain.canonicalLine, hblocks]
  exact Chain.line_put hE W hmem

/-- The announcement of the event that a commit computes in advance, from the old line: the
observer's, after the commit. -/
theorem announced_between (I : n.toLedger.Inv E) (hfrozen : ∀ slot ∈ n.frozen, slot ≤ n.slot)
    (hslot : n.slot ≤ o.slot) (hsame : o.frozen = n.frozen)
    (hline : E.latestAt o.line (o.finalizedSlot E) = E.latestAt n.db.canonicalLine (o.finalizedSlot E)) :
    announcementsOf (n.finalizedEventBetween E n.slot o.slot) =
      if n.observer.mark E = o.mark E then [] else [o.announcement E] := by
  have hbefore := I.resolveSyntheticFinality_eq hfrozen le_rfl
  have hafter := I.resolveSyntheticFinality_eq hfrozen hslot
  have hfinalizedSlot : ({ n.observer with slot := o.slot } : Observer).finalizedSlot E = o.finalizedSlot E := by
    simp only [Observer.finalizedSlot, Observer.seen, hsame]
    rfl
  have hfinalized : ({ n.observer with slot := o.slot } : Observer).finalized E = o.finalized E := by
    rw [Observer.finalized, hfinalizedSlot]
    exact hline.symm
  rw [Ledger.finalizedEventBetween, announcementsOf_transition, hbefore, hafter]
  simp only [hfinalized, hfinalizedSlot]
  rfl

/-- A move of the observer that appends one batch of events. -/
theorem observer_eq {batches : List (List Event)} (hbatches : c.batches = batches ++ [batch])
    (hline : c.canonicalLine = o.line) (hslot : c.slot = o.slot) :
    c.observer o.frozen =
      { o with announced := announcementsOf batches.flatten ++ announcementsOf batch } := by
  simp only [Chain.observer, hbatches, hline, hslot, List.flatten_append, List.flatten_singleton,
    announcementsOf_append]

theorem frozen_commitPrepared {operation : PreparedOperation} {mutation : Mutation}
    (h : E.commitPrepared n operation events mutation apply = .ok n')
    (happly : ∀ m : Node E.geth.State, (apply m).frozen = m.frozen) : n'.frozen = n.frozen := by
  obtain ⟨-, plan, -, applied, rfl, rfl⟩ := commitPrepared_spec h
  exact happly _

theorem frozen_mineApply {m : Node E.geth.State} : (E.mineApply n x m).frozen = m.frozen := by
  unfold mineApply
  simp only
  split <;> rfl

/-- A switch keeps the paused slot at or below the slot of its target. -/
theorem frozen_switch {target : Block}
    (commit : E.commitPrepared n (w.operation E n.toLedger) (w.events E n.toLedger) (.setHead target)
      (E.switchApply n w) = .ok n') : n'.frozen = n.frozen.map (min n'.slot) := by
  obtain ⟨-, plan, -, applied, rfl, rfl⟩ := commitPrepared_spec commit
  change (if (w.timeline E n.toLedger).finalityPaused then some (w.timeline E n.toLedger).finalitySlot else none) =
    n.frozen.map (min w.targetSlot)
  unfold Switch.timeline Ledger.frozen
  simp only [Ledger.timeline]
  by_cases hpaused : n.finalityPaused
  · by_cases hlater : w.targetSlot < n.finalitySlot
    · simp [hpaused, hlater, min_eq_left hlater.le]
    · simp [hpaused, hlater, min_eq_right (not_lt.mp hlater)]
  · simp [hpaused]

/-- A switch announces no finalized block. -/
theorem announcementsOf_switch {l : Ledger} : announcementsOf (w.events E l) = [] := by
  simp only [Switch.events, announcementsOf_append]
  split <;> simp [announcementsOf, Switch.blockEvent]

/-- A block on the head moves the observer one slot on. -/
theorem observes_extend (hE : E.Lawful) (I : n.toLedger.Inv E) (hfrozen : ∀ slot ∈ n.frozen, slot ≤ n.slot)
    (p : Planned.OnHead E n x control) {event : Event} {plan : EventPlan}
    (hplan : n.events.plan (event :: n.finalizedEventBetween E (x.slot - 1) x.slot) = .ok plan)
    (htype : event.type ≠ .finalizedCheckpoint)
    (hext : Ledger.Extends E (x.entry control) x.prepared.remaining plan.events n.toLedger n'.toLedger)
    (hsame : n'.frozen = n.frozen) : Observer.Step E n.observer n'.observer := by
  have W := I.chain.wellFormed
  have hslot : x.slot - 1 = n.slot := by rw [p.slot, Nat.add_sub_cancel]
  have hnext : E.slotAt x.block.time = n.slot + 1 := by rw [p.time, slotAt_add_mul, p.slot]
  have hparent : n.db.currentBlock = some x.parent := by
    rw [Ledger.currentBlock_eq, p.head]
    exact p.sound.parent_mem
  have hnumber : ∀ a ∈ n.db.canonicalLine, a.number < x.block.number := by
    intro a ha
    rw [Ledger.canonicalLine_eq hparent] at ha
    have hle : a.number ≤ x.parent.number := W.tree.le_of_mem_line W.tree.number_lt p.sound.parent_mem ha
    have hchild : x.block.number = x.parent.number + 1 := p.sound.number
    omega
  let o : Observer := { n.observer with line := x.block :: n.db.canonicalLine, slot := n.slot + 1 }
  have hannounced : announcementsOf plan.events = if n.observer.mark E = o.mark E then [] else [o.announcement E] := by
    rw [announcementsOf_plan hplan, announcementsOf_cons htype, hslot, p.slot]
    refine announced_between I hfrozen (o := o) (Nat.le_succ _) rfl ?_
    -- the new block is later than what is finalized
    have hpos := E.slotsPerEpoch_pos
    have hseen : o.seen ≤ n.slot + 1 := by
      change n.frozen.getD (n.slot + 1) ≤ n.slot + 1
      cases hn : n.frozen with
      | none => exact le_rfl
      | some slot => exact Nat.le_succ_of_le (hfrozen slot hn)
    have hbefore : o.finalizedSlot E < E.slotAt x.block.time := by
      rw [Observer.finalizedSlot, hnext]
      omega
    exact Observer.latestAt_cons_of_lt hbefore
  have hobserver : n'.observer = n.observer.advance E o := by
    rw [Ledger.observer, hext.chain_eq, hsame]
    refine (observer_eq (o := o) rfl (canonicalLine_extend hE W p) p.slot).trans ?_
    rw [hannounced]
    rfl
  rw [hobserver]
  exact .extend hnext hnumber

/-- What a move does to the observer. -/
inductive Observes (Q : Guard E.geth.State) (n n' : Node E.geth.State) : Prop
  | same (observer : n'.observer = n.observer)
  | onward (step : Observer.Step E n.observer n'.observer) (frozen : n'.frozen = n.frozen)
  | pause (allowed : Q.pausing true) (step : Observer.Step E n.observer n'.observer) (running : n.frozen = none)
  | resume (allowed : Q.pausing false) (step : Observer.Step E n.observer n'.observer) (running : n'.frozen = none)
  | moved {target : Block} (allowed : Q.switch n target) (moved : Observer.Moved n.observer n'.observer)

/-- The observer after a commit of metadata. -/
theorem observer_auxiliary (commit : n.commitAuxiliary [put] [] events apply = .ok n')
    (hput : put.1.auxiliary) (happly : ∀ db, apply { n with db := db } = { apply n with db := db }) :
    n'.observer = { (apply n).observer with
      announced := (apply n).observer.announced ++ announcementsOf events } := by
  obtain ⟨plan, hplan, hchain⟩ := Node.chain_auxiliary commit hput happly
  have hfrozen : n'.frozen = (apply n).frozen := by
    obtain ⟨-, plan', -, applied, happlied, rfl⟩ := Node.commitAuxiliary_spec commit
    rw [happly] at happlied
    subst happlied
    rfl
  rw [Ledger.observer, hchain, hfrozen, ← announcementsOf_plan hplan]
  exact observer_eq (o := (apply n).observer) rfl rfl rfl

/-- One that announces nothing and leaves the clock alone. -/
theorem observer_auxiliary_same (commit : n.commitAuxiliary [put] [] [] apply = .ok n')
    (hput : put.1.auxiliary) (happly : ∀ db, apply { n with db := db } = { apply n with db := db })
    (hsame : (apply n).observer = n.observer) : n'.observer = n.observer := by
  rw [observer_auxiliary commit hput happly, hsame]
  simp [announcementsOf]

theorem observes_wait (I : n.toLedger.Inv E) (hfrozen : ∀ slot ∈ n.frozen, slot ≤ n.slot) {count : Nat}
    {candidate : Candidate E.geth.State} (commit : n.commitAuxiliary
      [timelinePut { n.timeline E with currentSlot := n.slot + count, lastProcessedSlot := n.slot + count }] []
      (E.missEvents n count)
      (fun m => ({ m with slot := n.slot + count, lastProcessedSlot := n.slot + count }).setPendingView candidate) =
        .ok n') : Observes Q n n' := by
  have hobserver := observer_auxiliary commit rfl fun _ => rfl
  let o : Observer := { n.observer with slot := n.slot + count }
  have hmissed : announcementsOf ((List.range count).map fun i =>
      ({ type := .missedSlot, slot := n.slot + (i + 1) } : Event)) = [] := by
    simp [announcementsOf]
  have hannounced : announcementsOf (E.missEvents n count) =
      if n.observer.mark E = o.mark E then [] else [o.announcement E] := by
    rw [missEvents, announcementsOf_append, hmissed, List.nil_append]
    exact announced_between I hfrozen (o := o) (Nat.le_add_right _ _) rfl rfl
  rw [hannounced] at hobserver
  refine .onward ?_ (congrArg Observer.frozen hobserver)
  rw [hobserver]
  exact .wait (Nat.le_add_right _ _)

theorem observes_resume (I : n.toLedger.Inv E) (hfrozen : ∀ slot ∈ n.frozen, slot ≤ n.slot)
    (paused : n.finalityPaused = true)
    (commit : n.commitAuxiliary [timelinePut { n.timeline E with finalityPaused := false, finalitySlot := 0 }] []
      (Ledger.finalizedEventForTransition E (n.resolveSyntheticFinalityAt E (min n.slot n.finalitySlot))
        (n.resolveSyntheticFinalityAt E n.slot))
      (fun n => { n with finalityPaused := false, finalitySlot := 0 }) = .ok n') :
    Observer.Step E n.observer n'.observer ∧ n'.frozen = none := by
  have hobserver := observer_auxiliary commit rfl fun _ => rfl
  have hstopped : n.frozen = some n.finalitySlot := if_pos paused
  have hmin : min n.slot n.finalitySlot = n.observer.seen := by
    rw [min_eq_right (hfrozen _ hstopped)]
    change _ = n.frozen.getD _
    rw [hstopped, Option.getD_some]
  rw [announcementsOf_transition, hmin, I.resolveSyntheticFinalityAt_eq, I.resolveSyntheticFinalityAt_eq] at hobserver
  refine ⟨?_, congrArg Observer.frozen hobserver⟩
  rw [hobserver]
  exact .resume (o := n.observer) (Option.isSome_of_mem hstopped)

/-- A block on a branch is not observed. -/
theorem observer_branch (hE : E.Lawful) (W : Chain.WellFormed E n.chain) {item : Branch}
    (p : Planned.OnBranch E n x item)
    (commit : E.commitPrepared n (E.branchOperation n item x) [] (.store x.block x.receipts)
      (E.branchApply n item x) = .ok n') : n'.observer = n.observer := by
  have hsame := frozen_commitPrepared commit fun _ => rfl
  have hannounced : announcementsOf (n.chain.batches ++ [[]]).flatten = n.observer.announced := by
    simp [Ledger.observer, Chain.observer]
  rw [Ledger.observer, chain_branch hE p commit, hsame]
  exact Observer.ext (canonicalLine_put (c := n.chain) hE W) rfl rfl hannounced

/-- Every move of a node is one of its observer, or moves the head to another line. -/
theorem Move.observes (hE : E.Lawful) (I : n.toLedger.Inv E) (hfrozen : ∀ slot ∈ n.frozen, slot ≤ n.slot)
    (h : E.Move Q n n') : Observes Q n n' := by
  have W := I.chain.wellFormed
  cases h with
  | mine plan commit =>
    have p := planMine_spec hE W plan
    obtain ⟨events, hplan, hext⟩ := extends_mine hE W p commit
    have hsame := frozen_commitPrepared commit fun _ => frozen_mineApply
    exact .onward (observes_extend hE I hfrozen p hplan nofun hext hsame) hsame
  | control plan commit =>
    have p := planControl_spec hE W plan
    obtain ⟨events, hplan, hext⟩ := extends_control hE W p commit
    have hsame := frozen_commitPrepared commit fun _ => rfl
    exact .onward (observes_extend hE I hfrozen p hplan nofun hext hsame) hsame
  | branch named plan commit => exact .same (observer_branch hE W (planBranch_spec hE W plan) commit)
  | switch known allowed plan commit =>
    obtain ⟨hmem, -⟩ := switch_target W known
    obtain ⟨-, rfl, rfl, -⟩ := planSwitch_spec plan
    obtain ⟨events, hplan, hchain⟩ := chain_switch hE W hmem rfl commit
    refine .moved allowed ⟨frozen_switch commit, ?_⟩
    rw [Ledger.observer, hchain]
    change announcementsOf (n.chain.batches ++ [events.events]).flatten = _
    rw [List.flatten_append, List.flatten_singleton, announcementsOf_append, announcementsOf_plan hplan,
      announcementsOf_switch, List.append_nil]
    rfl
  | note note =>
    cases note with
    | wait pos bound pending commit => exact observes_wait I hfrozen commit
    | issue enqueued pending valid commit =>
      obtain ⟨t, ht, -, rfl⟩ := ExecutionRequestQueue.enqueue_spec enqueued
      simp only [recordIssued, ht] at commit
      exact .same (observer_auxiliary_same commit rfl (fun _ => rfl) rfl)
    | fork name_ne allowed fresh found taint commit =>
      exact .same (observer_auxiliary_same commit rfl (fun _ => rfl) rfl)
    | checkpoint name_ne allowed current here commit =>
      exact .same (observer_auxiliary_same commit rfl (fun _ => rfl) rfl)
    | snapshot => exact .same rfl
    | used => exact .same rfl
    | pause allowed running commit =>
      have hobserver := observer_auxiliary commit rfl fun _ => rfl
      have hrunning : n.frozen = none := if_neg (by simp [running])
      have hpaused : n'.observer = { n.observer with frozen := some n.slot } := by
        rw [hobserver]
        simp [announcementsOf, Ledger.observer, Ledger.frozen, Chain.observer, Ledger.chain]
      refine .pause allowed ?_ hrunning
      rw [hpaused]
      exact .pause (o := n.observer) hrunning
    | resume allowed paused commit =>
      obtain ⟨hstep, hrunning⟩ := observes_resume I hfrozen paused commit
      exact .resume allowed hstep hrunning
  | other same => exact .same (by rw [same])

end Env

end Ethertest
