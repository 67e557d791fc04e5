-- SUMMARY: What the prepared blocks of the commands have in common: each is a sound entry for the chain.
import Ethertest.Refinement.Commits

/-!
# Prepared blocks

A mined block, a control block and a branch block are prepared by different commands, from
the same parts. Whatever a command prepares is an entry that follows from the chain.
-/

namespace Ethertest

/-- The entry that an extension is recorded as. -/
def Extension.entry (x : Extension) (control : Bool) : Entry where
  parent := x.parent
  block := x.block
  slot := x.slot
  record := x.prepared.record
  projection := x.projection
  control := control

namespace Env

variable {E : Env}

/-- The second block is the first with another seal: other roots and hashes, and perhaps
other extra data. -/
def Resealed (b b' : Block) : Prop :=
  ∃ root extra bal requests, b'.header = { b.header with
    root := root, extra := extra, blockAccessListHash := bal, requestsHash := requests } ∧
  b'.transactions = b.transactions

theorem Resealed.trans {a b c : Block} (h : Resealed a b) (h' : Resealed b c) : Resealed a c := by
  obtain ⟨_, _, _, _, hh, ht⟩ := h
  obtain ⟨_, _, _, _, hh', ht'⟩ := h'
  exact ⟨_, _, _, _, by rw [hh', hh], ht'.trans ht⟩

variable {block parent : Block} {queue : ExecutionRequestQueue} {p : PreparedBlock} {time slot : Nat}
  {root : Hash} {txs : List Transaction} {extra : Bytes} {coinbase : Address} {g : Generated E.geth.State}
  {σ : Type} {state : E.geth.State} {empty : Bool} {built : Built E.geth.State} {changes : ControlChanges}

theorem resealed_of_assembles {native : Option (List Bytes)} (h : Assembles E.geth block native queue p) :
    Resealed block p.block ∧ p.block.header.extra = block.header.extra := by
  obtain ⟨hash, hseal⟩ := h.sealed
  rw [hseal]
  exact ⟨⟨_, _, _, _, rfl, rfl⟩, rfl⟩

/-- Resealing keeps the native requests that the block's execution produced. -/
theorem nativeOf_eq (h : Generates E parent time root txs extra coinbase g) (hseal : Resealed g.block block)
    (hextra : (if controlExtraPrefix <+: block.header.extra then [] else block.header.extra) = extra) :
    E.nativeOf parent block = some g.requests := by
  obtain ⟨_, _, _, _, hheader, htxs⟩ := hseal
  have hcoinbase : block.header.coinbase = coinbase := by rw [hheader, ← h.child.coinbase]
  have hroot : block.header.parentBeaconRoot = g.block.header.parentBeaconRoot := by rw [hheader]
  have htime : block.time = g.block.time := by simp only [Block.time, hheader]
  rw [nativeOf, hextra, hcoinbase, hroot, htime, htxs, ← h.child.nativeRequests_eq, h.native]

theorem projectionPut_slot {n : Node σ} {requests : Option ExecutionRequests} {p : StoredProjection}
    (h : E.projectionPut n block requests = .ok p) : p.slot = n.slotOf E block := by
  simp only [projectionPut, projectionRecord, Except.do_ok_iff, Except.ok.injEq] at h
  obtain ⟨record, ⟨signed, -, root, -, rfl⟩, h⟩ := h
  split at h
  · simp only [Except.do_ok_iff, Except.ok.injEq] at h
    obtain ⟨-, -, rfl⟩ := h
    rfl
  · rw [← Except.ok.inj h]

theorem newCandidateState_eq_ok :
    E.newCandidateState root = .ok state ↔ E.geth.openState root = .ok state := by
  unfold newCandidateState
  split
  · next h => rw [h]
  · next h => simp [h]

theorem commitCandidate_puts {committed : Committed E.geth.State}
    (h : E.commitCandidate state block = .ok committed) : ∀ kv ∈ committed.puts, ∃ key, kv.1 = .state key := by
  simp only [commitCandidate, Except.do_ok_iff, Except.ok.injEq] at h
  obtain ⟨⟨root, entries, stable⟩, -, rfl⟩ := h
  intro kv hkv
  obtain ⟨item, -, rfl⟩ := List.mem_map.mp hkv
  exact ⟨item.1, rfl⟩

/-- A prepared block is a sound entry. -/
theorem sound_of_generates {n : Node σ} {projection : StoredProjection} {control : Bool} {recordPut : KV}
    (hparent : n.chain.Mem E parent) (h : Generates E parent time root txs extra coinbase g)
    (hseal : Resealed g.block block)
    (hextra : (if controlExtraPrefix <+: block.header.extra then [] else block.header.extra) = extra)
    (hcontrol : control = true ↔ controlExtraPrefix <+: block.header.extra)
    (hprepared : prepareExecutionRequestBlock E.geth block g.requests queue = .ok p)
    (hprojection : E.projectionPut n p.block p.requests = .ok projection)
    (hrecord : executionRequestRecordPut (E.hash p.block) p.record = .ok recordPut) :
    Entry.Sound E n.chain ⟨parent, p.block, slot, p.record, projection, control⟩ queue p.remaining := by
  have hp := prepare_spec hprepared
  obtain ⟨hsealed, hsame⟩ := resealed_of_assembles hp
  have hall := hseal.trans hsealed
  have hnative := nativeOf_eq h hall (by rw [hsame]; exact hextra)
  obtain ⟨_, _, _, _, hheader, -⟩ := hall
  have hnumber : p.block.number = g.block.number := by simp only [Block.number, hheader]
  have htime : p.block.time = g.block.time := by simp only [Block.time, hheader]
  exact {
    parent_mem := hparent
    parentHash := by
      rw [← h.child.parentHash]
      simp only [Block.parentHash, hheader]
    number := hnumber.trans h.child.number
    slotNumber := by
      intro hamsterdam
      rw [hnumber, htime] at hamsterdam
      have := h.child.slotNumber hamsterdam
      rw [← h.child.time, ← htime] at this
      simp only [hheader]
      exact this
    projection := (projectionPut_slot hprojection).trans (n.toLedger.slotOf_eq _)
    control := by
      rw [hsame]
      exact hcontrol
    valid := by
      simp only [executionRequestRecordPut, Except.do_ok_iff, Except.unit_ok_iff] at hrecord
      exact hrecord.1
    prepared := ⟨block, g.requests, p, hp, rfl, rfl, rfl, hnative⟩ }

/-! ## The commands' plans -/

/-- What a plan gives: a sound entry, state entries to store, and whether controls were
consumed. -/
structure Planned (E : Env) (n : Node E.geth.State) (x : Extension) (queue : ExecutionRequestQueue)
    (control : Bool) : Prop where
  sound : (x.entry control).Sound E n.chain queue x.prepared.remaining
  states : ∀ kv ∈ x.statePuts, ∃ key, kv.1 = .state key
  controlled : x.prepared.controlled = true ↔ x.prepared.record.controls.count ≠ 0

/-- A plan for a block on the head, in the next slot. -/
structure Planned.OnHead (E : Env) (n : Node E.geth.State) (x : Extension) (control : Bool) : Prop
    extends Planned E n x n.pendingExecutionRequests control where
  head : n.chain.head = E.hash x.parent
  slot : x.slot = n.slot + 1
  time : x.block.time = E.genesisTime + x.slot * E.slotDuration
  extra : ¬ branchExtraPrefix <+: x.block.header.extra

variable {n : Node E.geth.State} {ctx ctx' : Ctx} {x : Extension}

theorem buildBlockAtSlot_spec (hE : E.Lawful)
    (h : E.buildBlockAtSlot n ctx empty root slot = .ok (built, ctx')) :
    ∃ parent txs, n.head = .ok parent ∧ n.slot < slot ∧ built.slot = slot ∧
      Generates E parent (E.genesisTime + slot * E.slotDuration) root txs [] n.feeRecipient built.generated := by
  simp only [buildBlockAtSlot, Except.do_ok_iff, exists_const, failIf_eq_ok, Except.ok.injEq,
    Prod.mk.injEq] at h
  obtain ⟨parent, hhead, withdrawals, -, txs, -, hslot, -, state, hstate, ⟨g, ctx₁⟩, hgen, rfl, -⟩ := h
  rw [newCandidateState_eq_ok] at hstate
  refine ⟨parent, _, hhead, ?_, rfl, generateBlock_spec hE hstate hgen⟩
  omega

/-- The stages of a plan for a mined block. -/
theorem planMine_ok (h : E.planMine n ctx empty = .ok (x, ctx')) :
    ∃ parent projection built p receipts stored put committed, n.head = .ok parent ∧
      E.ensureProjection n parent = .ok projection ∧
      E.buildBlock n ctx empty projection.root = .ok (built, ctx') ∧
      prepareExecutionRequestBlock E.geth built.generated.block built.generated.requests
        n.pendingExecutionRequests = .ok p ∧
      E.deriveReceiptFields p.block built.generated.receipts = .ok receipts ∧
      E.projectionPut n p.block p.requests = .ok stored ∧
      executionRequestRecordPut (E.hash p.block) p.record = .ok put ∧
      E.commitCandidate built.generated.state p.block = .ok committed ∧ committed.root = p.block.root ∧
      x = ⟨parent, p, receipts, built.slot, stored, committed.puts⟩ := by
  simp only [planMine, Except.do_ok_iff, exists_const, failIf_eq_ok, not_not] at h
  obtain ⟨parent, hhead, projection, hensure, ⟨built, ctx₁⟩, hbuild, p, hprepared, receipts, hreceipts, stored,
    hprojection, put, hrecord, committed, hcommit, hroot, h⟩ := h
  suffices hx : x = ⟨parent, p, receipts, built.slot, stored, committed.puts⟩ ∧ ctx' = ctx₁ from
    ⟨parent, projection, built, p, receipts, stored, put, committed, hhead, hensure, hx.2 ▸ hbuild, hprepared,
      hreceipts, hprojection, hrecord, hcommit, hroot, hx.1⟩
  split at h <;> simp only [Except.do_ok_iff, Except.ok.injEq, Prod.mk.injEq] at h
  · obtain ⟨-, -, rfl, rfl⟩ := h
    exact ⟨rfl, rfl⟩
  · obtain ⟨rfl, rfl⟩ := h
    exact ⟨rfl, rfl⟩

theorem buildBlock_ok (h : E.buildBlock n ctx empty root = .ok (built, ctx')) :
    (n.slot + 1) % 2 ^ 64 ≠ 0 ∧ E.buildBlockAtSlot n ctx empty root ((n.slot + 1) % 2 ^ 64) = .ok (built, ctx') := by
  simpa only [buildBlock, Except.do_ok_iff, exists_const, failIf_eq_ok] using h

theorem planMine_spec (hE : E.Lawful) (W : Chain.WellFormed E n.chain)
    (h : E.planMine n ctx empty = .ok (x, ctx')) : Planned.OnHead E n x false := by
  obtain ⟨parent, projection, built, p, receipts, stored, put, committed, hhead, -, hbuild, hprepared, -,
    hprojection, hrecord, hcommit, -, rfl⟩ := planMine_ok h
  obtain ⟨parent', txs, hhead', hlt, hslot, hgen⟩ := buildBlockAtSlot_spec hE (buildBlock_ok hbuild).2
  obtain rfl : parent = parent' := Except.ok.inj (hhead.symm.trans hhead')
  obtain ⟨hmem, hhash⟩ := W.mem_of_blocks (Ledger.head_eq_ok.mp hhead)
  have hp := prepare_spec hprepared
  obtain ⟨⟨_, _, _, _, hheader, -⟩, hextra⟩ := resealed_of_assembles hp
  have hnil : built.generated.block.header.extra = [] := hgen.child.extra
  have hcontrol : ¬ controlExtraPrefix <+: ([] : Bytes) := by decide
  refine { sound := ?_, states := commitCandidate_puts hcommit, controlled := hp.controlled_iff,
           head := hhash.symm, slot := ?_, time := ?_, extra := ?_ }
  · refine sound_of_generates hmem hgen ⟨_, _, _, _, rfl, rfl⟩ ?_ ?_ hprepared hprojection hrecord
    · rw [hnil, if_neg hcontrol]
    · rw [hnil]
      simpa using hcontrol
  · have hle : (n.slot + 1) % 2 ^ 64 ≤ n.slot + 1 := Nat.mod_le _ _
    simp only [hslot]
    omega
  · rw [show built.slot = _ from hslot, ← hgen.child.time]
    simp only [Block.time, Extension.block, hheader]
  · change ¬ branchExtraPrefix <+: p.block.header.extra
    rw [hextra, hnil]
    decide

theorem overrideBlock_spec {generated : Generated E.geth.State}
    (h : E.overrideBlock ctx parent generated changes = .ok (block, state, ctx')) :
    Resealed generated.block block ∧
      block.header.extra = controlExtraPrefix ++ E.geth.controlDigest changes ∧
      block.withdrawals = generated.block.withdrawals := by
  by_cases hA : E.geth.isAmsterdam E.config generated.block.number generated.block.time
  · simp only [overrideBlock, hA, if_true, Except.do_ok_iff, Except.unit_ok_iff, Except.ok.injEq,
      Prod.mk.injEq] at h
    obtain ⟨⟨executed, ctx₁⟩, -, state₁, -, -, ⟨state₂, list⟩, -, rfl, -⟩ := h
    exact ⟨⟨_, _, _, _, rfl, rfl⟩, rfl, rfl⟩
  · simp only [overrideBlock, hA, Bool.false_eq_true, if_false, Except.do_ok_iff, Except.ok.injEq,
      Prod.mk.injEq] at h
    obtain ⟨⟨executed, ctx₁⟩, -, state₁, -, ⟨state₂, list⟩, -, rfl, -⟩ := h
    exact ⟨⟨_, _, _, _, rfl, rfl⟩, rfl, rfl⟩

/-- The two kinds of extra data differ at the eleventh byte. -/
theorem not_branch_of_control (digest : Bytes) : ¬ branchExtraPrefix <+: controlExtraPrefix ++ digest := by
  intro h
  have htake := List.prefix_iff_eq_take.mp h
  rw [List.take_append_of_le_length (by decide)] at htake
  exact absurd htake (by decide)

/-- The stages of a plan for a control block. -/
theorem planControl_ok (h : E.planControl n ctx changes = .ok (x, ctx')) :
    ∃ parent projection withdrawals state g ctx₁ block overridden p receipts stored put committed,
      n.head = .ok parent ∧ E.ensureProjection n parent = .ok projection ∧
      assignedWithdrawals n.db parent n.pendingWithdrawals = .ok withdrawals ∧
      E.newCandidateState parent.root = .ok state ∧
      E.generateBlock ctx parent (E.genesisTime + (n.slot + 1) * E.slotDuration) projection.root [] withdrawals
        false [] state n.feeRecipient = .ok (g, ctx₁) ∧
      E.overrideBlock ctx₁ parent g changes = .ok (block, overridden, ctx') ∧
      prepareExecutionRequestBlock E.geth block g.requests n.pendingExecutionRequests = .ok p ∧
      E.deriveReceiptFields p.block g.receipts = .ok receipts ∧
      E.projectionPut n p.block p.requests = .ok stored ∧
      executionRequestRecordPut (E.hash p.block) p.record = .ok put ∧
      E.commitCandidate overridden p.block = .ok committed ∧ committed.root = p.block.root ∧
      x = ⟨parent, p, receipts, n.slot + 1, stored, committed.puts⟩ := by
  simp only [planControl, Except.do_ok_iff, exists_const, failIf_eq_ok, not_not] at h
  obtain ⟨parent, hhead, projection, hensure, -, -, withdrawals, hwithdrawals, state, hstate, ⟨g, ctx₁⟩, hgen,
    ⟨block, overridden, ctx₂⟩, hoverride, p, hprepared, receipts, hreceipts, stored, hprojection, put, hrecord,
    committed, hcommit, hroot, h⟩ := h
  suffices hx : x = ⟨parent, p, receipts, n.slot + 1, stored, committed.puts⟩ ∧ ctx' = ctx₂ from
    ⟨parent, projection, withdrawals, state, g, ctx₁, block, overridden, p, receipts, stored, put, committed, hhead,
      hensure, hwithdrawals, hstate, hgen, hx.2 ▸ hoverride, hprepared, hreceipts, hprojection, hrecord, hcommit,
      hroot, hx.1⟩
  split at h <;> simp only [Except.do_ok_iff, Except.ok.injEq, Prod.mk.injEq] at h
  · obtain ⟨-, -, rfl, rfl⟩ := h
    exact ⟨rfl, rfl⟩
  · obtain ⟨rfl, rfl⟩ := h
    exact ⟨rfl, rfl⟩

theorem planControl_spec (hE : E.Lawful) (W : Chain.WellFormed E n.chain)
    (h : E.planControl n ctx changes = .ok (x, ctx')) : Planned.OnHead E n x true := by
  obtain ⟨parent, projection, withdrawals, state, g, ctx₁, block, overridden, p, receipts, stored, put, committed,
    hhead, -, -, hstate, hgen, hoverride, hprepared, -, hprojection, hrecord, hcommit, -, rfl⟩ := planControl_ok h
  obtain ⟨hmem, hhash⟩ := W.mem_of_blocks (Ledger.head_eq_ok.mp hhead)
  have hgen := generateBlock_spec hE (newCandidateState_eq_ok.mp hstate) hgen
  obtain ⟨hseal, hextra, -⟩ := overrideBlock_spec hoverride
  have hp := prepare_spec hprepared
  obtain ⟨hsealed, hsame⟩ := resealed_of_assembles hp
  obtain ⟨_, _, _, _, hheader, -⟩ := hseal.trans hsealed
  have hcontrol : controlExtraPrefix <+: block.header.extra := by
    rw [hextra]
    exact List.prefix_append _ _
  refine { sound := ?_, states := commitCandidate_puts hcommit, controlled := hp.controlled_iff,
           head := hhash.symm, slot := rfl, time := ?_, extra := ?_ }
  · refine sound_of_generates hmem hgen hseal ?_ ?_ hprepared hprojection hrecord
    · rw [if_pos hcontrol]
    · simpa using hcontrol
  · rw [← hgen.child.time]
    simp only [Block.time, Extension.block, hheader]
  · change ¬ branchExtraPrefix <+: p.block.header.extra
    rw [hsame, hextra]
    exact not_branch_of_control _

/-- A plan for a block on a branch, one slot after its parent. -/
structure Planned.OnBranch (E : Env) (n : Node E.geth.State) (x : Extension) (item : Branch) : Prop
    extends Planned E n x newExecutionRequestQueue false where
  head : item.head = E.hash x.parent
  slot : x.slot = E.slotAt x.block.time
  time : x.block.time = x.parent.time + E.slotDuration
  extra : x.block.header.extra = branchExtraPrefix ++ item.name

theorem planBranch_spec (hE : E.Lawful) (W : Chain.WellFormed E n.chain) {item : Branch}
    (h : E.planBranch n ctx item = .ok (x, ctx')) : Planned.OnBranch E n x item := by
  simp only [planBranch, Except.do_ok_iff, exists_const, failIf_eq_ok, orFail_eq_ok, Except.ok.injEq,
    Prod.mk.injEq] at h
  obtain ⟨ctx₀, -, parent, hparent, projection, -, -, state, hstate, ⟨g, ctx₁⟩, hgen, p, hprepared, receipts,
    -, committed, hcommit, -, stored, hprojection, recordPut, hrecord, rfl, -⟩ := h
  obtain ⟨hmem, hhash⟩ := W.mem_of_blocks hparent
  have hgen := generateBlock_spec hE (newCandidateState_eq_ok.mp hstate) hgen
  have hp := prepare_spec hprepared
  obtain ⟨⟨_, _, _, _, hheader, -⟩, hextra⟩ := resealed_of_assembles hp
  have hown : g.block.header.extra = branchExtraPrefix ++ item.name := hgen.child.extra
  have hcontrol : ¬ controlExtraPrefix <+: g.block.header.extra := by
    rw [hown]
    exact Chain.not_control_of_branch _
  refine { sound := ?_, states := commitCandidate_puts hcommit, controlled := hp.controlled_iff,
           head := hhash.symm, slot := ?_, time := ?_, extra := hextra.trans hown }
  · refine sound_of_generates hmem hgen ⟨_, _, _, _, rfl, rfl⟩ ?_ ?_ hprepared hprojection hrecord
    · rw [if_neg hcontrol, hown]
    · simpa using hcontrol
  · change (if E.genesisTime < p.block.time then _ else _) = E.slotAt p.block.time
    split
    · rfl
    · rw [slotAt, Nat.sub_eq_zero_of_le (by omega), Nat.zero_div]
  · change p.block.time = parent.time + E.slotDuration
    rw [← hgen.child.time]
    simp only [Block.time, hheader]

end Env

end Ethertest
