-- SUMMARY: Synthetic finality of reachable nodes: the safe and finalized blocks, how they move up, and their events.
import Ethertest.Guarantees.Timeline
import Ethertest.Refinement.Observer

/-!
# Finality of reachable nodes

The finalized and the safe block are the highest canonical blocks two epochs and one epoch
before the finality slot. As long as the head is not moved to another line they only move
up, and every change of the finalized block or its epoch is announced when it happens.
-/

namespace Ethertest

open Relation (ReflTransGen)

/-- The operations that move the head to another line. -/
def Op.switches : Op → Bool
  | .switchBranch _ | .revert _ | .restore _ => true
  | _ => false

theorem Op.switchTarget_eq_none {σ : Type} {n : Node σ} {op : Op} (h : op.switches = false) :
    op.switchTarget n = none := by
  cases op <;> first | rfl | cases h

/-- A highest canonical block at or before a slot. -/
structure Ledger.Highest (E : Env) (l : Ledger) (slot : Nat) (b : Block) : Prop where
  mem : b ∈ l.db.canonicalLine
  le : l.slotOf E b ≤ slot
  highest : ∀ a ∈ l.db.canonicalLine, l.slotOf E a ≤ slot → a.number ≤ b.number

/-- What is finalized and safe, and that all who ask agree. -/
structure Ledger.FinalitySound (E : Env) (l : Ledger) : Prop where
  finalized : l.Highest E (l.syntheticFinalitySlot l.slot - 2 * E.cfg.chain.slotsPerEpoch)
    (l.resolveSyntheticFinality E l.slot).finalized
  safe : l.Highest E (l.syntheticFinalitySlot l.slot - E.cfg.chain.slotsPerEpoch)
    (l.resolveSyntheticFinality E l.slot).safe
  /-- the finalized block is the safe one or an ancestor, and the safe block the head or one -/
  ordered : ∃ head, l.db.currentBlock = some head ∧ (l.resolveSyntheticFinality E l.slot).safe ∈ l.db.line head ∧
    (l.resolveSyntheticFinality E l.slot).finalized ∈ l.db.line (l.resolveSyntheticFinality E l.slot).safe
  status : l.finalityStatus E = l.statusOf E (l.resolveSyntheticFinality E l.slot)
  /-- the Beacon API's finalized blocks are the canonical ones up to the finalized block -/
  beacon : ∀ {h b}, l.db.blockByHash h = some b → (l.beaconBlockFinalized E b = true ↔
    b ∈ l.db.canonicalLine ∧ b.number ≤ (l.resolveSyntheticFinality E l.slot).finalized.number)

/-- Neither block has moved down. -/
structure Ledger.FinalityGrows (E : Env) (l l' : Ledger) : Prop where
  finalized : (l.resolveSyntheticFinality E l.slot).finalized.number ≤
    (l'.resolveSyntheticFinality E l'.slot).finalized.number
  safe : (l.resolveSyntheticFinality E l.slot).safe.number ≤ (l'.resolveSyntheticFinality E l'.slot).safe.number

/-- Both blocks are the same. -/
structure Ledger.FinalityConstant (E : Env) (l l' : Ledger) : Prop where
  finalized : (l'.resolveSyntheticFinality E l'.slot).finalized = (l.resolveSyntheticFinality E l.slot).finalized
  safe : (l'.resolveSyntheticFinality E l'.slot).safe = (l.resolveSyntheticFinality E l.slot).safe

namespace Ledger.Inv

variable {E : Env} {l : Ledger} (I : l.Inv E) (hfrozen : ∀ slot ∈ l.frozen, slot ≤ l.slot)
include I hfrozen

theorem syntheticFinalitySlot_eq : l.syntheticFinalitySlot l.slot = l.observer.seen :=
  congrArg FinalityResolution.headSlot (I.resolveSyntheticFinality_eq hfrozen le_rfl)

theorem finalized_eq : (l.resolveSyntheticFinality E l.slot).finalized = l.observer.finalized E := by
  rw [I.resolveSyntheticFinality_eq hfrozen le_rfl]
  rfl

theorem safe_eq : (l.resolveSyntheticFinality E l.slot).safe = l.observer.safe E := by
  rw [I.resolveSyntheticFinality_eq hfrozen le_rfl]
  rfl

theorem finalizedSlot_eq : (l.resolveSyntheticFinality E l.slot).finalizedSlot = l.observer.finalizedSlot E := by
  rw [I.resolveSyntheticFinality_eq hfrozen le_rfl]
  rfl

omit hfrozen in
theorem slotOf_mem {b : Block} (hb : b ∈ l.db.canonicalLine) : l.slotOf E b = E.slotAt b.time := by
  rw [l.slotOf_eq]
  exact I.chain.timeline.slotOf_eq (I.mem_of_mem_canonicalLine hb)

theorem highest_latestAt (slot : Nat) : l.Highest E slot (E.latestAt l.db.canonicalLine slot) := by
  have S := I.observer_sound hfrozen
  have hlatest := S.latestAt_eq_some slot
  have hmem := S.latestAt_mem slot
  refine ⟨hmem, (I.slotOf_mem hmem).trans_le (mem_of_latest hlatest).2, fun a ha hslot => ?_⟩
  rw [I.slotOf_mem ha] at hslot
  have hle := le_latest S.slots hlatest ha hslot
  exact (S.number_le ha hmem).mpr hle

omit hfrozen in
/-- Of two canonical blocks, the lower one is an ancestor of the other. -/
theorem mem_line_of_number_le {a b : Block} (ha : a ∈ l.db.canonicalLine) (hb : b ∈ l.db.canonicalLine)
    (h : a.number ≤ b.number) : a ∈ l.db.line b := by
  obtain ⟨head, hcurrent, hhead⟩ := I.exists_head
  have tree := I.chain.wellFormed.tree
  rw [canonicalLine_eq hcurrent] at ha hb
  obtain ⟨path, hsplit⟩ := tree.line_split hhead.1 hb
  have hordered := tree.line_pairwise tree.number_lt hhead.1
  rw [Chain.line, hsplit] at ha
  rw [hsplit, List.pairwise_append] at hordered
  rcases List.mem_append.mp ha with ha | ha
  · exact absurd (hordered.2.2 a ha b (Ancestry.Tree.self_mem_line b)) (not_lt.mpr h)
  · exact ha

omit I hfrozen in
theorem finalityStatus_eq : l.finalityStatus E = l.statusOf E (l.resolveSyntheticFinality E l.slot) := by
  have hslot : (if !l.finalityPaused ∨ l.slot < l.finalitySlot then l.slot else l.finalitySlot) =
      l.syntheticFinalitySlot l.slot := by
    unfold syntheticFinalitySlot
    cases l.finalityPaused with
    | false => simp
    | true =>
      simp only [Bool.not_true, Bool.false_eq_true, false_or, true_and]
      split <;> split <;> omega
  rw [finalityStatus, hslot]
  rfl

theorem beaconBlockFinalized_iff (hE : E.Lawful) {b : Block} (hzero : E.hash b ≠ 0) :
    l.beaconBlockFinalized E b = true ↔ b ∈ l.db.canonicalLine ∧ b.number ≤ (l.observer.finalized E).number := by
  have S := I.observer_sound hfrozen
  have hhighest := I.highest_latestAt hfrozen (l.observer.finalizedSlot E)
  unfold beaconBlockFinalized
  by_cases hb : b ∈ l.db.canonicalLine
  · rw [if_neg (not_not.mpr (I.canonicalHash_of_mem hb)), I.finalizedSlot_eq hfrozen, decide_eq_true_eq]
    refine ⟨fun hslot => ⟨hb, hhighest.highest b hb hslot⟩, fun hle => ?_⟩
    rw [I.slotOf_mem hb]
    refine ((S.number_le hb hhighest.mem).mp hle.2).trans ?_
    rw [← I.slotOf_mem hhighest.mem]
    exact hhighest.le
  · rw [if_pos (mt (I.canonicalHash_eq_iff hE hzero).mp hb)]
    simp [hb]

theorem finalitySound (hE : E.Lawful) (hzero : ∀ b, E.hash b ≠ 0) : l.FinalitySound E := by
  have S := I.observer_sound hfrozen
  obtain ⟨head, hcurrent, -⟩ := I.exists_head
  have hfinalized := I.highest_latestAt hfrozen (l.observer.finalizedSlot E)
  have hsafe := I.highest_latestAt hfrozen (l.observer.safeSlot E)
  have hle : (l.observer.finalized E).number ≤ (l.observer.safe E).number := S.latestAt_mono (by
    unfold Observer.finalizedSlot Observer.safeSlot
    omega)
  constructor
  case finalized =>
      rw [I.finalized_eq hfrozen, I.syntheticFinalitySlot_eq hfrozen]
      exact hfinalized
  case safe =>
      rw [I.safe_eq hfrozen, I.syntheticFinalitySlot_eq hfrozen]
      exact hsafe
  case ordered =>
      rw [I.finalized_eq hfrozen, I.safe_eq hfrozen]
      refine ⟨head, hcurrent, ?_, I.mem_line_of_number_le hfinalized.mem hsafe.mem hle⟩
      rw [line_eq, ← canonicalLine_eq hcurrent]
      exact hsafe.mem
  case status => exact finalityStatus_eq
  case beacon =>
      intro h b _
      rw [I.finalized_eq hfrozen]
      exact I.beaconBlockFinalized_iff hfrozen hE (hzero b)

end Ledger.Inv

namespace Env

variable {E : Env} {Q : Guard E.geth.State} {n n' : Node E.geth.State}

/-- A pause is never ahead of the clock. -/
theorem Move.frozen_le (hE : E.Lawful) (I : n.toLedger.Inv E) (hfrozen : ∀ slot ∈ n.frozen, slot ≤ n.slot)
    (h : E.Move Q n n') : ∀ slot ∈ n'.frozen, slot ≤ n'.slot := by
  have S := I.observer_sound hfrozen
  cases h.observes hE I hfrozen with
  | same observer =>
    have hsame : n'.frozen = n.frozen ∧ n'.slot = n.slot :=
      ⟨congrArg Observer.frozen observer, congrArg Observer.slot observer⟩
    rw [hsame.1, hsame.2]
    exact hfrozen
  | onward step => exact (step.sound S).frozen
  | pause allowed step => exact (step.sound S).frozen
  | resume allowed step => exact (step.sound S).frozen
  | moved allowed moved =>
    intro slot hslot
    have hmoved : n'.frozen = n.frozen.map (min n'.slot) := moved.1
    rw [hmoved] at hslot
    obtain ⟨before, -, rfl⟩ := Option.map_eq_some_iff.mp hslot
    exact min_le_left _ _

theorem ReachableBy.frozen_le {P : Node E.geth.State → Command → Prop} (hE : E.Lawful) (h : E.ReachableBy P n) :
    ∀ slot ∈ n.frozen, slot ≤ n.slot := by
  refine h.invariant (X := fun n => ∀ slot ∈ n.frozen, slot ≤ n.slot) hE (fun _ => guarded_any) (fun hstart => ?_)
    fun I hfrozen hmove => hmove.frozen_le hE I hfrozen
  obtain ⟨projection, record, -, -, hledger⟩ := newNode_spec hstart
  rw [hledger]
  exact nofun

/-! ## Runs on one line -/

/-- No switch of the head; `pausing` says whether finality may be paused and resumed. -/
def onLine (E : Env) (pausing : Bool → Prop) : Guard E.geth.State where
  switch := fun _ _ => False
  pausing := pausing

variable {pausing : Bool → Prop}

theorem run_frozen_le (hE : E.Lawful) (I : n.toLedger.Inv E) (hfrozen : ∀ slot ∈ n.frozen, slot ≤ n.slot)
    (h : ReflTransGen (E.Move Q) n n') : ∀ slot ∈ n'.frozen, slot ≤ n'.slot := by
  induction h with
  | refl => exact hfrozen
  | tail hrun hmove ih => exact hmove.frozen_le hE (Move.run_inv hE I hrun) ih

/-- Moves on one line are steps of the observer. -/
theorem run_observes (hE : E.Lawful) (I : n.toLedger.Inv E) (hfrozen : ∀ slot ∈ n.frozen, slot ≤ n.slot)
    (h : ReflTransGen (E.Move (E.onLine pausing)) n n') :
    ReflTransGen (Observer.Step E) n.observer n'.observer := by
  induction h with
  | refl => exact .refl
  | tail hrun hmove ih =>
    cases hmove.observes hE (Move.run_inv hE I hrun) (run_frozen_le hE I hfrozen hrun) with
    | same observer => exact observer ▸ ih
    | onward step => exact ih.tail step
    | pause allowed step => exact ih.tail step
    | resume allowed step => exact ih.tail step
    | moved allowed => exact allowed.elim

/-- As long as finality is not resumed, a paused observer sees no progress. -/
theorem run_stopped (hE : E.Lawful) (I : n.toLedger.Inv E) (hfrozen : ∀ slot ∈ n.frozen, slot ≤ n.slot)
    (hpausing : ¬ pausing false) (hstopped : n.frozen.isSome) (h : ReflTransGen (E.Move (E.onLine pausing)) n n') :
    n'.frozen.isSome ∧ n'.observer.finalized E = n.observer.finalized E ∧ n'.observer.safe E = n.observer.safe E := by
  induction h with
  | refl => exact ⟨hstopped, rfl, rfl⟩
  | @tail m m' hrun hmove ih =>
    obtain ⟨hstill, hfinalized, hsafe⟩ := ih
    have I' := Move.run_inv hE I hrun
    have hfrozen' := run_frozen_le hE I hfrozen hrun
    have S := I'.observer_sound hfrozen'
    cases hmove.observes hE I' hfrozen' with
    | same observer =>
      have hsame : m'.frozen = m.frozen := congrArg Observer.frozen observer
      exact ⟨hsame ▸ hstill, observer ▸ hfinalized, observer ▸ hsafe⟩
    | onward step frozen =>
      have hstill' : m'.frozen.isSome := frozen ▸ hstill
      have hnext := step.stopped S hstill hstill'
      exact ⟨hstill', hnext.1.trans hfinalized, hnext.2.trans hsafe⟩
    | pause allowed step running => simp [running] at hstill
    | resume allowed step => exact absurd allowed hpausing
    | moved allowed => exact allowed.elim

theorem guarded_onLine (pausing : Bool → Prop) {c : Command} (hc : c.op.switches = false)
    (hpause : c.op = .pauseFinality → pausing true)
    (hresume : c.op = .resumeFinality → pausing false) : Guarded (E.onLine pausing) n c where
  switch := fun target htarget => by
    rw [Op.switchTarget_eq_none hc] at htarget
    cases htarget
  pause := hpause
  resume := hresume

/-- A node whose finality was never paused. -/
theorem ReachableBy.neverPaused (hE : E.Lawful) (h : E.ReachableBy (fun _ c => c.op ≠ .pauseFinality) n) :
    n.frozen = none := by
  refine (h.invariant (Q := { pausing := (· = false) })
    (X := fun n => n.frozen = none ∧ ∀ slot ∈ n.frozen, slot ≤ n.slot) hE
    (fun hc => { pause := fun hop => absurd hop hc, resume := fun _ => rfl }) (fun hstart => ?_) ?_).1
  · obtain ⟨projection, record, -, -, hledger⟩ := newNode_spec hstart
    rw [hledger]
    exact ⟨rfl, nofun⟩
  · rintro m m' I ⟨hnone, hfrozen⟩ hmove
    refine ⟨?_, hmove.frozen_le hE I hfrozen⟩
    cases hmove.observes hE I hfrozen with
    | same observer => exact (congrArg Observer.frozen observer).trans hnone
    | onward step frozen => exact frozen.trans hnone
    | pause allowed => cases allowed
    | resume allowed step running => exact running
    | moved allowed moved =>
      have hmoved : m'.frozen = m.frozen.map (min m'.slot) := moved.1
      rw [hmoved, hnone]
      rfl

/-- A successful `ResumeFinality` leaves finality running. -/
theorem resumeFinality_ok {ctx ctx' : Ctx} (h : (E.resumeFinality n ctx).result = .ok ((), ctx')) :
    (E.resumeFinality n ctx).node.frozen = none := by
  obtain ⟨ctx₁, hrun⟩ := executeWrite_ok h
  change E.resumeFinality n ctx = _ at hrun
  rw [hrun] at h ⊢
  split at h
  · next hrunning =>
    rw [if_pos hrunning]
    exact if_neg (by simpa using hrunning)
  · next hpaused =>
    rw [if_neg hpaused]
    obtain ⟨o, ho, heq⟩ := settle_ok_of_result h
    rw [heq]
    simp only [Except.do_ok_iff, Except.ok.injEq] at ho
    obtain ⟨n', commit, rfl⟩ := ho
    obtain ⟨-, plan, -, applied, rfl, rfl⟩ := Node.commitAuxiliary_spec commit
    rfl

/-- Finality is a function of the canonical chain and the slot while it is running. -/
theorem resolve_eq_of_line {m : Node E.geth.State} (I : n.toLedger.Inv E) (I' : m.toLedger.Inv E)
    (hn : n.frozen = none) (hm : m.frozen = none) (hline : m.db.canonicalLine = n.db.canonicalLine)
    (hslot : m.slot = n.slot) : m.resolveSyntheticFinality E m.slot = n.resolveSyntheticFinality E n.slot := by
  have hobserved : m.syntheticFinalitySlot m.slot = n.syntheticFinalitySlot n.slot := by
    rw [I.syntheticFinalitySlot_eq (by simp [hn]), I'.syntheticFinalitySlot_eq (by simp [hm])]
    change m.frozen.getD m.slot = n.frozen.getD n.slot
    rw [hn, hm, hslot]
  rw [Ledger.resolveSyntheticFinality, Ledger.resolveSyntheticFinality, I.resolveSyntheticFinalityAt_eq,
    I'.resolveSyntheticFinalityAt_eq, hline, hobserved]

/-- What an operation that does not switch the head does to finality. -/
theorem finality_step (hE : E.Lawful) {P : Node E.geth.State → Command → Prop} (h : E.ReachableBy P n) {c : Command}
    (hc : c.op.switches = false) :
    n.toLedger.FinalityGrows E (E.step n c).toLedger ∧
      (n.finalityPaused = true → c.op ≠ .resumeFinality → n.toLedger.FinalityConstant E (E.step n c).toLedger) := by
  have I := h.inv hE
  have hfrozen := h.frozen_le hE
  have I' := (ReachableBy.step h.reachable trivial : E.Reachable (E.step n c)).inv hE
  have hfrozen' := (ReachableBy.step h.reachable trivial : E.Reachable (E.step n c)).frozen_le hE
  constructor
  · have hmoves := moves_step (guarded_onLine (n := n) (fun _ => True) hc (fun _ => trivial) fun _ => trivial)
    have hprogress := Observer.run_progress (I.observer_sound hfrozen) (run_observes hE I hfrozen hmoves)
    constructor
    · rw [I.finalized_eq hfrozen, I'.finalized_eq hfrozen']
      exact hprogress.1
    · rw [I.safe_eq hfrozen, I'.safe_eq hfrozen']
      exact hprogress.2.1
  · intro hpaused hresume
    have hstopped : n.frozen.isSome := by simp [Ledger.frozen, hpaused]
    have hmoves := moves_step (guarded_onLine (n := n) (· = true) hc (fun _ => rfl)
      fun hop => absurd hop hresume)
    obtain ⟨-, hfinalized, hsafe⟩ := run_stopped hE I hfrozen Bool.false_ne_true hstopped hmoves
    constructor
    · rw [I.finalized_eq hfrozen, I'.finalized_eq hfrozen', hfinalized]
    · rw [I.safe_eq hfrozen, I'.safe_eq hfrozen', hsafe]

end Env

/-- In every reachable node, finality is sound. Operations that do not switch the head let it
only move up, and not at all while it is paused. After `ResumeFinality` it is that of any
node with this chain and slot that was never paused. -/
theorem reachable_finalitySound {E : Env} (hE : E.Lawful) (hzero : ∀ b, E.hash b ≠ 0) {n : Node E.geth.State}
    (h : E.Reachable n) :
    n.toLedger.FinalitySound E ∧
    (∀ c : Command, c.op.switches = false → n.toLedger.FinalityGrows E (E.step n c).toLedger ∧
      (n.finalityPaused = true → c.op ≠ .resumeFinality → n.toLedger.FinalityConstant E (E.step n c).toLedger)) ∧
    ∀ {ctx ctx' : Ctx} {n' m : Node E.geth.State}, E.resumeFinality n ctx = ⟨n', .ok ((), ctx')⟩ →
      n'.finalityPaused = false ∧ (E.ReachableBy (fun _ c => c.op ≠ .pauseFinality) m →
        m.db.canonicalLine = n'.db.canonicalLine → m.slot = n'.slot →
          n'.resolveSyntheticFinality E n'.slot = m.resolveSyntheticFinality E m.slot) := by
  refine ⟨(h.inv hE).finalitySound (h.frozen_le hE) hE hzero, fun c hc => Env.finality_step hE h hc, ?_⟩
  intro ctx ctx' n' m hresume
  have hrunning : n'.frozen = none := by
    have hnode := Env.resumeFinality_ok (congrArg Outcome.result hresume)
    rwa [hresume] at hnode
  have hreachable : E.Reachable n' := by
    have hstep : E.step n ⟨.resumeFinality, ctx⟩ = n' := congrArg Outcome.node hresume
    exact hstep ▸ .step h trivial
  refine ⟨?_, fun hm hline hslot => ?_⟩
  · by_contra hpaused
    simp [Ledger.frozen, hpaused] at hrunning
  · exact (Env.resolve_eq_of_line (hreachable.inv hE) (hm.inv hE) hrunning (hm.neverPaused hE) hline hslot).symm

namespace Reference

/-- Finality is paused after one block. -/
def paused : Node env.geth.State := run [⟨.mine 1 false, none⟩, ⟨.pauseFinality, none⟩, ⟨.mine 1 false, none⟩]

def resumed : Node env.geth.State := (env.resumeFinality paused none).node

def neverPaused : Node env.geth.State := run [⟨.mine 1 false, none⟩, ⟨.mine 1 false, none⟩]

end Reference

set_option maxRecDepth 100000 in
theorem reachable_finalitySound_reference :
    let E := Reference.env
    Reference.paused.FinalitySound E ∧
      Reference.paused.FinalityConstant E (E.step Reference.paused ⟨.missSlots 20, none⟩).toLedger ∧
      Reference.resumed.resolveSyntheticFinality E Reference.resumed.slot =
        Reference.neverPaused.resolveSyntheticFinality E Reference.neverPaused.slot := by
  have hpaused : Reference.paused.finalityPaused = true := by decide +kernel
  have hresult : (Reference.env.resumeFinality Reference.paused none).result.toOption.map (·.1) = some () := by
    decide +kernel
  have hline : Reference.neverPaused.db.canonicalLine = Reference.resumed.db.canonicalLine := by decide +kernel
  have hslot : Reference.neverPaused.slot = Reference.resumed.slot := by decide +kernel
  have hnever : Reference.env.ReachableBy (fun _ c => c.op ≠ .pauseFinality) Reference.neverPaused := by
    have hstart : Reference.env.ReachableBy (fun _ c => c.op ≠ .pauseFinality) Reference.start :=
      .start Reference.newNode_eq
    exact .step (.step hstart nofun) nofun
  obtain ⟨ctx, hresult⟩ := Reference.result_of_toOption hresult
  have hresumed : Reference.env.resumeFinality Reference.paused none = ⟨Reference.resumed, .ok ((), ctx)⟩ := by
    rw [← hresult]
    rfl
  obtain ⟨hsound, hsteps, hresume⟩ := reachable_finalitySound Reference.lawful Reference.blockHash_ne_zero
    (Reference.reachable_run [⟨.mine 1 false, none⟩, ⟨.pauseFinality, none⟩, ⟨.mine 1 false, none⟩])
  exact ⟨hsound, (hsteps ⟨.missSlots 20, none⟩ rfl).2 hpaused nofun, (hresume hresumed).2 hnever hline hslot⟩

end Ethertest
