-- SUMMARY: Every public operation is a run of acts and so of moves, and every reachable node satisfies the invariant.
import Ethertest.Refinement.Simulation
import Ethertest.Refinement.Acts

/-!
# Operations

An operation that succeeds, and one that fails after a commit, is a sequence of acts. A
switch is made by `SwitchBranch`, `Revert` and `Restore` only, on the node that the
operation started from.
-/

namespace Ethertest

/-- The block that an operation would make the head. -/
def Op.switchTarget {σ : Type} (n : Node σ) : Op → Option Block
  | .switchBranch name => n.branches[name]?.bind fun item => n.db.blockByHash item.head
  | .revert id => (n.snapshots[id]?.filter fun p => !p.used).bind fun p => n.db.readBlock p.hash p.number
  | .restore name => n.checkpoints[name]?.bind fun p => n.db.readBlock p.hash p.number
  | _ => none

/-- The control that an operation asks for. -/
def Op.request : Op → Option (RequestType × Bytes)
  | .addDepositRequest request => some (.deposit, encodeExecutionDepositRequest request)
  | .addWithdrawalRequest request => some (.withdrawal, encodeExecutionWithdrawalRequest request)
  | .addConsolidationRequest request => some (.consolidation, encodeExecutionConsolidationRequest request)
  | _ => none

open Relation (ReflTransGen)

namespace Env

variable {E : Env} {Q : Guard E.geth.State} {n : Node E.geth.State} {α β : Type}

variable {message : String} {value : α} {ctx' : Ctx} {prepared : Except Error (Outcome E.geth.State α)}
  {command : Node E.geth.State → Ctx → Outcome E.geth.State α} {P : Node E.geth.State → Prop} {empty : Bool}

theorem rebuildAfterCommit_node {ctx : Ctx} :
    (E.rebuildAfterCommit n ctx message value).node = E.rebuilt n ctx := by
  unfold rebuildAfterCommit rebuilt
  cases E.rebuildPendingView n ctx <;> rfl

theorem rebuildAfterCommit_ledger {ctx : Ctx} :
    (E.rebuildAfterCommit n ctx message value).node.toLedger = n.toLedger :=
  rebuildAfterCommit_node ▸ rebuilt_ledger n ctx

theorem rebuildAfterCommit_live {value' : α}
    (h : (E.rebuildAfterCommit n none message value).result = .ok (value', ctx')) : ctx' = none := by
  unfold rebuildAfterCommit at h
  split at h
  · next hview => exact (Prod.mk.inj (Except.ok.inj h)).2 ▸ rebuildPendingView_live hview
  · cases h

/-- A view that cannot be rebuilt disables writes. -/
theorem rebuildAfterCommit_error {ctx : Ctx} {err : Error}
    (h : (E.rebuildAfterCommit n ctx message value).result = .error err) : (E.rebuilt n ctx).writeErr ≠ none := by
  unfold rebuildAfterCommit at h
  unfold rebuilt
  cases hview : E.rebuildPendingView n ctx with
  | ok result => rw [hview] at h; cases h
  | error err => cases hwrites : n.writeErr <;> simp [Node.disableWrites, Node.setMiningMode, hwrites]

/-! ## Successful outcomes -/

theorem settle_ok_of_result (h : (Outcome.settle n prepared).result = .ok (value, ctx')) :
    ∃ o, prepared = .ok o ∧ Outcome.settle n prepared = o := by
  cases prepared with
  | ok o => exact ⟨o, rfl, rfl⟩
  | error err => cases h

theorem executeWrite_ok {ctx : Ctx} (h : (n.executeWrite ctx command).result = .ok (value, ctx')) :
    ∃ ctx₁, n.executeWrite ctx command = command n ctx₁ := by
  obtain ⟨o, ho, heq⟩ := settle_ok_of_result h
  simp only [Except.do_ok_iff, Except.ok.injEq] at ho
  obtain ⟨ctx₁, -, -, -, rfl⟩ := ho
  exact ⟨ctx₁, heq⟩

/-! ## Every outcome -/

/-- What holds of a node and of every outcome of a preparation. -/
theorem settle_node (hn : P n) (h : ∀ o, prepared = .ok o → P o.node) : P (Outcome.settle n prepared).node := by
  cases prepared with
  | ok o => exact h o rfl
  | error err => exact hn

theorem executeWrite_node {ctx : Ctx} (hn : P n) (h : ∀ ctx, P (command n ctx).node) :
    P (n.executeWrite ctx command).node := by
  refine settle_node hn fun o ho => ?_
  simp only [Except.do_ok_iff, Except.ok.injEq] at ho
  obtain ⟨ctx', -, -, -, rfl⟩ := ho
  exact h ctx'

theorem andThen_node {o : Outcome E.geth.State α}
    {next : Node E.geth.State → α → Ctx → Outcome E.geth.State β} (ho : P o.node)
    (h : ∀ value ctx, P (next o.node value ctx).node) : P (o.andThen next).node := by
  unfold Outcome.andThen
  split
  · next value ctx _ => exact h value ctx
  · exact ho

/-! ## Outcomes that acts lead to -/

/-- The outcome's node is reached by acts. If no context is cancelled during the operation,
the context that is left is not cancelled either. -/
structure Acts (E : Env) (Q : Policy E.geth.State) (n : Node E.geth.State) (o : Outcome E.geth.State α) : Prop where
  run : ReflTransGen (E.Act Q) n o.node
  live : Q.live → ∀ value ctx, o.result = .ok (value, ctx) → ctx = none

variable {Q : Policy E.geth.State} {ctx : Ctx}

namespace Acts

theorem fail {err : Error} : Acts E Q n (.fail n err : Outcome E.geth.State α) :=
  ⟨.refl, fun _ _ _ h => nomatch h⟩

variable {value : α}

theorem done (hctx : Q.live → ctx = none) : Acts E Q n (.done n value ctx) :=
  ⟨.refl, fun hlive _ _ h => (Prod.mk.inj (Except.ok.inj h)).2 ▸ hctx hlive⟩

theorem act {n' : Node E.geth.State} (hctx : Q.live → ctx = none) (h : E.Act Q n n') :
    Acts E Q n (.done n' value ctx) :=
  ⟨.single h, (done hctx : Acts E Q n' (.done n' value ctx)).live⟩

theorem settle {prepared : Except Error (Outcome E.geth.State α)} (h : ∀ o, prepared = .ok o → Acts E Q n o) :
    Acts E Q n (.settle n prepared) := by
  cases prepared with
  | error err => exact fail
  | ok o => exact h o rfl

theorem andThen {o : Outcome E.geth.State α} {next : Node E.geth.State → α → Ctx → Outcome E.geth.State β}
    (h : Acts E Q n o)
    (hnext : ∀ value ctx, o.result = .ok (value, ctx) → (Q.live → ctx = none) →
      Acts E Q o.node (next o.node value ctx)) : Acts E Q n (o.andThen next) := by
  unfold Outcome.andThen
  split
  · next value ctx hresult =>
    have hacts := hnext value ctx hresult fun hlive => h.live hlive value ctx hresult
    exact ⟨h.run.trans hacts.run, hacts.live⟩
  · exact ⟨h.run, fun _ _ _ h => nomatch h⟩

/-- A context that was cancelled before is found so by the controller. -/
theorem executeWrite {command : Node E.geth.State → Ctx → Outcome E.geth.State α}
    (hctx : Q.live → ctx = none ∨ ctx = some 0) (h : ∀ ctx, (Q.live → ctx = none) → Acts E Q n (command n ctx)) :
    Acts E Q n (n.executeWrite ctx command) := by
  refine settle fun o ho => ?_
  simp only [Except.do_ok_iff, Except.ok.injEq] at ho
  obtain ⟨ctx', hcheck, -, -, rfl⟩ := ho
  refine h ctx' fun hlive => ?_
  rcases hctx hlive with rfl | rfl
  · exact (Except.ok.inj hcheck).symm
  · cases hcheck

theorem rebuilt {m : Node E.geth.State} {message : String} (hctx : Q.live → ctx = none)
    (h : E.Act Q n (E.rebuilt m ctx)) : Acts E Q n (E.rebuildAfterCommit m ctx message value) := by
  refine ⟨rebuildAfterCommit_node ▸ .single h, fun hlive value' ctx' hresult => ?_⟩
  obtain rfl := hctx hlive
  exact rebuildAfterCommit_live hresult

end Acts

/-! ## Mining -/

/-- A block is not built on a context that was cancelled before. -/
theorem acts_mineExecutionBlock (hctx : Q.live → ctx = none ∨ ctx = some 0) :
    Acts E Q n (E.mineExecutionBlock n ctx empty) := by
  refine .settle fun o ho => ?_
  simp only [Except.do_ok_iff, Except.ok.injEq] at ho
  obtain ⟨⟨x, ctx'⟩, plan, committed, commit, rfl⟩ := ho
  have hctx' (hlive : Q.live) : ctx' = none := planMine_live plan (hctx hlive)
  exact .rebuilt hctx' (.mine plan commit hctx')

theorem acts_mineBlocks {count : Nat} (hctx : Q.live → ctx = none) :
    Acts E Q n (E.mineBlocks empty count n ctx) := by
  induction count generalizing n ctx with
  | zero => exact .done hctx
  | succ count ih =>
    refine .settle fun o ho => ?_
    simp only [Except.do_ok_iff, Except.ok.injEq] at ho
    obtain ⟨ctx', hcheck, rfl⟩ := ho
    have hctx' (hlive : Q.live) : ctx' = none := by
      obtain rfl := hctx hlive
      exact (Except.ok.inj hcheck).symm
    exact (acts_mineExecutionBlock fun h => .inl (hctx' h)).andThen fun _ _ _ hctx =>
      (ih hctx).andThen fun _ _ _ hctx => .done hctx

section Picked

variable (hpick : Q.live → ctx = none ∨ ctx = some 0)
include hpick

variable {count slot : Nat} {empty : Bool} {ctx' : Ctx} {name : Bytes} {target : Block}

theorem acts_mine : Acts E Q n (E.mine n ctx count empty) := by
  refine .settle fun o ho => ?_
  simp only [Except.do_ok_iff, Except.ok.injEq] at ho
  obtain ⟨-, -, -, -, rfl⟩ := ho
  exact .executeWrite hpick fun _ hctx => acts_mineBlocks hctx

theorem acts_mineCompatible {timestamp interval : Option Nat} :
    Acts E Q n (E.mineCompatible n ctx count timestamp interval) := by
  refine .settle fun o ho => ?_
  simp only [Except.do_ok_iff, Except.ok.injEq] at ho
  obtain ⟨-, -, rfl⟩ := ho
  refine .executeWrite hpick fun _ hctx => .settle fun o ho => ?_
  simp only [Except.do_ok_iff] at ho
  obtain ⟨-, -, -, -, ho⟩ := ho
  split at ho
  · rw [← Except.ok.inj ho]
    exact .done hctx
  · simp only [Except.do_ok_iff, Except.ok.injEq] at ho
    obtain ⟨-, -, -, -, rfl⟩ := ho
    exact acts_mineBlocks hctx

omit hpick in
theorem missResponse_live {start left offset size : Nat}
    (h : E.missResponse start left offset size none = .ok ctx') : ctx' = none := by
  induction left generalizing offset size with
  | zero => exact (Except.ok.inj h).symm
  | succ left ih =>
    simp only [missResponse, Except.do_ok_iff] at h
    obtain ⟨ctx₁, hcheck, -, -, h⟩ := h
    obtain rfl := Except.ok.inj hcheck
    exact ih h

omit hpick in
theorem missSlotChecks_live {left : Nat} (h : missSlotChecks left none = .ok ctx') : ctx' = none := by
  induction left with
  | zero => exact (Except.ok.inj h).symm
  | succ left ih =>
    simp only [missSlotChecks, Except.do_ok_iff] at h
    obtain ⟨ctx₁, hcheck, h⟩ := h
    obtain rfl := Except.ok.inj hcheck
    exact ih h

theorem acts_missSlots : Acts E Q n (E.missSlots n ctx count) := by
  refine .settle fun o ho => ?_
  simp only [Except.do_ok_iff, Except.ok.injEq] at ho
  obtain ⟨-, -, -, -, rfl⟩ := ho
  refine .executeWrite hpick fun _ hctx => .settle fun o ho => ?_
  simp only [Except.do_ok_iff, exists_const, failIf_eq_ok] at ho
  obtain ⟨hbound, ctx₁, hresponse, ctx₂, hchecks, ho⟩ := ho
  have hctx₂ (hlive : Q.live) : ctx₂ = none := by
    obtain rfl := hctx hlive
    obtain rfl := missResponse_live hresponse
    exact missSlotChecks_live hchecks
  split at ho
  · rw [← Except.ok.inj ho]
    exact .done hctx₂
  · next hcount =>
    simp only [Except.do_ok_iff, Except.ok.injEq] at ho
    obtain ⟨⟨pending, ctx₃⟩, hpending, n', commit, rfl⟩ := ho
    refine .act (fun hlive => ?_) (.note (.wait (Nat.pos_of_ne_zero hcount) (by omega) hpending commit))
    obtain rfl := hctx₂ hlive
    exact pendingCandidateAtSlot_checks.live hpending

theorem acts_applyControl {changes : ControlChanges} (hQ : Q.control (cloneControlChanges changes)) :
    Acts E Q n (E.applyControl n ctx changes) := by
  refine .settle fun o ho => ?_
  simp only [Except.do_ok_iff, Except.ok.injEq] at ho
  obtain ⟨-, -, -, -, rfl⟩ := ho
  refine .executeWrite hpick fun _ hctx => .settle fun o ho => ?_
  simp only [Except.do_ok_iff, Except.ok.injEq] at ho
  obtain ⟨⟨x, ctx'⟩, plan, committed, commit, rfl⟩ := ho
  have hctx' (hlive : Q.live) : ctx' = none := by
    obtain rfl := hctx hlive
    exact planControl_live plan
  exact .rebuilt hctx' (.control plan commit hctx' hQ)

/-! ## Branches, points and finality -/

theorem acts_createBranch {blockNumber : Nat} (hQ : Q.fork name) :
    Acts E Q n (E.createBranch n ctx name blockNumber) := by
  refine .settle fun o ho => ?_
  simp only [Except.do_ok_iff, exists_const, failIf_eq_ok, Except.ok.injEq] at ho
  obtain ⟨hname, -, rfl⟩ := ho
  refine .executeWrite hpick fun _ hctx => .settle fun o ho => ?_
  simp only [Except.do_ok_iff, exists_const, failIf_eq_ok, orFail_eq_ok, Except.ok.injEq] at ho
  obtain ⟨hfresh, base, hbase, -, n', commit, rfl⟩ := ho
  exact .act hctx (.note (.fork hname hQ (Option.not_isSome_iff_eq_none.mp hfresh) hbase rfl commit))

omit hpick in
theorem planBranch_live {item : Branch} {x : Extension} (h : E.planBranch n none item = .ok (x, ctx')) :
    ctx' = none := by
  simp only [planBranch, Except.do_ok_iff, Except.ok.injEq, Prod.mk.injEq] at h
  obtain ⟨ctx₁, hcheck, parent, -, projection, -, -, -, state, -, ⟨g, ctx₂⟩, hgen, p, -, receipts, -, committed, -,
    -, -, stored, -, -, -, -, rfl⟩ := h
  obtain rfl := Except.ok.inj hcheck
  exact generateBlock_checks.live hgen

omit hpick in
theorem acts_mineBranchBlock (hctx : Q.live → ctx = none) : Acts E Q n (E.mineBranchBlock n ctx name) := by
  refine .settle fun o ho => ?_
  simp only [Except.do_ok_iff, orFail_eq_ok, Except.ok.injEq] at ho
  obtain ⟨item, hitem, ⟨x, ctx'⟩, plan, n', commit, rfl⟩ := ho
  refine .act (fun hlive => ?_) (.branch hitem plan commit)
  obtain rfl := hctx hlive
  exact planBranch_live plan

omit hpick in
theorem acts_mineBranchBlocks (hctx : Q.live → ctx = none) :
    Acts E Q n (E.mineBranchBlocks name count n ctx) := by
  induction count generalizing n ctx with
  | zero => exact .done hctx
  | succ count ih =>
    exact (acts_mineBranchBlock hctx).andThen fun _ _ _ hctx => (ih hctx).andThen fun _ _ _ hctx => .done hctx

theorem acts_mineBranch : Acts E Q n (E.mineBranch n ctx name count) := by
  refine .settle fun o ho => ?_
  simp only [Except.do_ok_iff, Except.ok.injEq] at ho
  obtain ⟨-, -, -, -, rfl⟩ := ho
  refine .executeWrite hpick fun _ hctx => .settle fun o ho => ?_
  simp only [Except.do_ok_iff, Except.ok.injEq] at ho
  obtain ⟨-, -, rfl⟩ := ho
  exact acts_mineBranchBlocks hctx

omit hpick in
theorem acts_switchCanonical (hctx : Q.live → ctx = none)
    (known : (∃ h, n.db.blockByHash h = some target) ∧ slot = n.slotOf E target ∨
      ∃ p : ChainPoint, n.db.readBlock p.hash p.number = some target ∧ slot = p.slot ∧ p.place ∈ n.chain.points)
    (allowed : Q.switch n target) : Acts E Q n (E.switchCanonical n ctx target slot) := by
  refine .settle fun o ho => ?_
  simp only [Except.do_ok_iff] at ho
  obtain ⟨oldHead, -, ho⟩ := ho
  split at ho
  · rw [← Except.ok.inj ho]
    exact .done hctx
  · simp only [Except.do_ok_iff, Except.ok.injEq] at ho
    obtain ⟨w, plan, committed, commit, rfl⟩ := ho
    exact .rebuilt hctx (.switch known allowed plan commit hctx)

theorem acts_switchBranch
    (hQ : ∀ target, (Op.switchBranch name).switchTarget n = some target → Q.switch n target) :
    Acts E Q n (E.switchBranch n ctx name) := by
  refine .executeWrite hpick fun _ hctx => .settle fun o ho => ?_
  simp only [Except.do_ok_iff, exists_const, failIf_eq_ok, orFail_eq_ok, Except.ok.injEq] at ho
  obtain ⟨item, hitem, target, htarget, -, -, -, -, -, -, -, rfl⟩ := ho
  refine acts_switchCanonical hctx (.inl ⟨⟨_, htarget⟩, rfl⟩) (hQ target ?_)
  simp [Op.switchTarget, hitem, htarget]

theorem acts_snapshot : Acts E Q n (E.snapshot n ctx) := by
  refine .executeWrite hpick fun _ hctx => .settle fun o ho => ?_
  simp only [Except.do_ok_iff, exists_const, failIf_eq_ok, Except.ok.injEq] at ho
  obtain ⟨head, hhead, -, rfl⟩ := ho
  exact .act hctx (.note (.snapshot rfl hhead rfl))

omit hpick in
/-- A switch keeps the snapshots. -/
theorem switchCanonical_snapshots : (E.switchCanonical n ctx target slot).node.snapshots = n.snapshots := by
  unfold switchCanonical Outcome.settle
  split
  · next o ho =>
    simp only [Except.do_ok_iff] at ho
    obtain ⟨oldHead, -, ho⟩ := ho
    split at ho
    · rw [← Except.ok.inj ho]
      rfl
    · simp only [Except.do_ok_iff, Except.ok.injEq] at ho
      obtain ⟨w, -, committed, commit, rfl⟩ := ho
      obtain ⟨-, plan, -, applied, rfl, rfl⟩ := commitPrepared_spec commit
      rw [rebuildAfterCommit_node, rebuilt_ledger]
      rfl
  · rfl

theorem acts_revert {id : Nat}
    (hQ : ∀ target, (Op.revert id).switchTarget n = some target → Q.switch n target) :
    Acts E Q n (E.revert n ctx id) := by
  refine .executeWrite hpick fun _ hctx => ?_
  split
  · exact .done hctx
  · next point hpoint =>
    split
    · exact .done hctx
    · next hused =>
      refine .settle fun o ho => ?_
      simp only [Except.do_ok_iff, orFail_eq_ok, Except.ok.injEq] at ho
      obtain ⟨target, htarget, rfl⟩ := ho
      have hknown : point.place ∈ n.chain.points := .inl ⟨id, point, hpoint, rfl⟩
      refine Acts.andThen (acts_switchCanonical hctx (.inr ⟨point, htarget, rfl, hknown⟩) (hQ target ?_)) ?_
      · simp [Op.switchTarget, hpoint, Option.filter_some, hused, htarget]
      · intro _ _ _ hctx
        exact .act hctx (.note (.used (by rw [switchCanonical_snapshots]; exact hpoint)))

theorem acts_checkpoint (hQ : Q.checkpoint name) : Acts E Q n (E.checkpoint n ctx name) := by
  refine .settle fun o ho => ?_
  simp only [Except.do_ok_iff, exists_const, failIf_eq_ok, Except.ok.injEq] at ho
  obtain ⟨hname, rfl⟩ := ho
  refine .executeWrite hpick fun _ hctx => .settle fun o ho => ?_
  simp only [Except.do_ok_iff, Except.ok.injEq] at ho
  obtain ⟨head, hhead, n', commit, rfl⟩ := ho
  exact .act hctx (.note (.checkpoint hname hQ hhead rfl commit))

theorem acts_restore (hQ : ∀ target, (Op.restore name).switchTarget n = some target → Q.switch n target) :
    Acts E Q n (E.restore n ctx name) := by
  refine .executeWrite hpick fun _ hctx => .settle fun o ho => ?_
  simp only [Except.do_ok_iff, orFail_eq_ok, Except.ok.injEq] at ho
  obtain ⟨point, hpoint, target, htarget, rfl⟩ := ho
  refine acts_switchCanonical hctx (.inr ⟨point, htarget, rfl, .inr ⟨name, point, hpoint, rfl⟩⟩) (hQ target ?_)
  simp [Op.switchTarget, hpoint, htarget]

theorem acts_pauseFinality (hQ : Q.pausing true) : Acts E Q n (E.pauseFinality n ctx) := by
  refine .executeWrite hpick fun _ hctx => ?_
  split
  · exact .done hctx
  · next hrunning =>
    refine .settle fun o ho => ?_
    simp only [Except.do_ok_iff, Except.ok.injEq] at ho
    obtain ⟨n', commit, rfl⟩ := ho
    exact .act hctx (.note (.pause hQ (Bool.not_eq_true _ ▸ hrunning) commit))

theorem acts_resumeFinality (hQ : Q.pausing false) : Acts E Q n (E.resumeFinality n ctx) := by
  refine .executeWrite hpick fun _ hctx => ?_
  split
  · exact .done hctx
  · next hpaused =>
    refine .settle fun o ho => ?_
    simp only [Except.do_ok_iff, Except.ok.injEq] at ho
    obtain ⟨n', commit, rfl⟩ := ho
    exact .act hctx (.note (.resume hQ (by simpa using hpaused) commit))

/-! ## Inputs of the next block -/

omit hpick in
/-- An attempt to mine changes nothing, or it commits a block and rebuilds the view. -/
theorem mineExecutionBlock_cases :
    (∃ err, E.mineExecutionBlock n ctx empty = .fail n err) ∨
    ∃ x ctx' m, E.planMine n ctx empty = .ok (x, ctx') ∧
      E.commitPrepared n (E.mineOperation n x) (E.mineEvents n x) (.extend x.block x.receipts) (E.mineApply n x) =
        .ok m ∧
      E.mineExecutionBlock n ctx empty = E.rebuildAfterCommit { m with pendingWithdrawals := [] } ctx'
        "block committed but pending view rebuild failed: %w" (x.block, x.receipts) := by
  unfold mineExecutionBlock Outcome.settle
  split
  · next o ho =>
    simp only [Except.do_ok_iff, Except.ok.injEq] at ho
    obtain ⟨⟨x, ctx'⟩, plan, m, commit, rfl⟩ := ho
    exact .inr ⟨x, ctx', m, plan, commit, rfl⟩
  · next err _ => exact .inl ⟨err, rfl⟩

theorem acts_sendTransaction {tx : Transaction} (hQ : Q.send n tx) : Acts E Q n (E.sendTransaction n ctx tx) := by
  refine .executeWrite hpick fun ctx hctx => .settle fun o ho => ?_
  simp only [Except.do_ok_iff] at ho
  obtain ⟨pool, added, ho⟩ := ho
  split at ho
  · have hcases : _ ∨ _ := @mineExecutionBlock_cases E { n with pool := pool } ctx false
    rcases hcases with ⟨err, hfail⟩ | ⟨x, ctx', m, plan, commit, hmined⟩
    · -- nothing was committed, and the pool is put back
      rw [hfail] at ho
      rw [Except.ok.inj (ho.symm.trans (if_pos rfl))]
      exact .fail
    · have hctx' (hlive : Q.live) : ctx' = none := by
        obtain rfl := hctx hlive
        exact planMine_live plan (.inl rfl)
      have hact {pool' : TransactionPool} {events : PendingHashLog}
          (ends : pool' = (E.rebuilt { m with pendingWithdrawals := [] } ctx').pool ∨
            (E.rebuilt { m with pendingWithdrawals := [] } ctx').writeErr ≠ none ∧ pool' = n.pool) :
          E.Act Q n
            { E.rebuilt { m with pendingWithdrawals := [] } ctx' with pool := pool', pendingEvents := events } :=
        .sendMined hQ added plan commit hctx' rfl ends
      rw [hmined, rebuildAfterCommit_node] at ho
      split at ho
      · next value ctx₁ hresult =>
        rw [← Except.ok.inj ho]
        refine .act (fun hlive => ?_) (hact (.inl rfl))
        obtain rfl := hctx' hlive
        exact rebuildAfterCommit_live hresult
      · next err hresult =>
        have herr := rebuildAfterCommit_error hresult
        split at ho
        · rw [← Except.ok.inj ho]
          exact ⟨.single (hact (.inr ⟨herr, rfl⟩)), fun _ _ _ h => nomatch h⟩
        · rw [← Except.ok.inj ho]
          exact ⟨.single (hact (.inl rfl)), fun _ _ _ h => nomatch h⟩
  · simp only [Except.do_ok_iff, Except.ok.injEq] at ho
    obtain ⟨⟨candidate, ctx'⟩, pending, rfl⟩ := ho
    refine .act (fun hlive => ?_) (.send hQ added pending)
    obtain rfl := hctx hlive
    exact pendingCandidate_checks.live pending

omit hpick in
/-- A command that only publishes the pending view anew. -/
theorem Acts.view {n₀ n' : Node E.geth.State} {value : α} (hctx : Q.live → ctx = none)
    (view : E.rebuildPendingView n₀ ctx = .ok (n', ctx')) (h : E.Act Q n n') : Acts E Q n (.done n' value ctx') :=
  .act (fun hlive => by obtain rfl := hctx hlive; exact rebuildPendingView_live view) h

theorem acts_removePoolTransactions {hash : Option Hash} {address : Option Address} :
    Acts E Q n (E.removePoolTransactions n ctx hash address) := by
  refine .executeWrite hpick fun _ hctx => .settle fun o ho => ?_
  simp only at ho
  split at ho
  · rw [← Except.ok.inj ho]
    exact .done hctx
  · simp only [Except.do_ok_iff, Except.ok.injEq] at ho
    obtain ⟨⟨n', ctx'⟩, view, rfl⟩ := ho
    exact .view hctx view (.drop view)

theorem acts_setFeeRecipient {address : Address} : Acts E Q n (E.setFeeRecipient n ctx address) := by
  refine .executeWrite hpick fun _ hctx => .settle fun o ho => ?_
  simp only [Except.do_ok_iff, Except.ok.injEq] at ho
  obtain ⟨⟨n', ctx'⟩, view, rfl⟩ := ho
  exact .view hctx view (.recipient view)

theorem acts_addWithdrawal {request : WithdrawalRequest} (hwithdraw : Q.withdraw request) :
    Acts E Q n (E.addWithdrawal n ctx request) := by
  refine .settle fun o ho => ?_
  simp only [Except.do_ok_iff, Except.ok.injEq] at ho
  obtain ⟨-, -, rfl⟩ := ho
  refine .executeWrite hpick fun _ hctx => .settle fun o ho => ?_
  simp only [Except.do_ok_iff, exists_const, failIf_eq_ok, Except.ok.injEq] at ho
  obtain ⟨hroom, ⟨n', ctx'⟩, view, rfl⟩ := ho
  exact .view hctx view (.withdraw hwithdraw (Nat.not_le.mp hroom) view)

theorem acts_addExecutionRequest {requestType : UInt8} {data : Bytes} (hQ : Q.issue) :
    Acts E Q n (E.addExecutionRequest n ctx requestType data) := by
  refine .executeWrite hpick fun _ hctx => .settle fun o ho => ?_
  simp only [executionRequestQueuePut, Except.do_ok_iff, Except.unit_ok_iff, Except.ok.injEq] at ho
  obtain ⟨proposed, enqueued, ⟨candidate, ctx'⟩, pending, put, ⟨valid, rfl⟩, n', commit, rfl⟩ := ho
  refine .act (fun hlive => ?_) (.note (.issue enqueued pending valid commit hQ))
  obtain rfl := hctx hlive
  exact pendingCandidate_checks.live pending

/-! ## The mining mode -/

omit hpick in
theorem acts_drainPool {fuel : Nat} (hctx : Q.live → ctx = none) : Acts E Q n (E.drainPool fuel n ctx) := by
  induction fuel generalizing n ctx with
  | zero =>
    unfold drainPool
    split
    · exact .done hctx
    · exact .fail
  | succ fuel ih =>
    unfold drainPool
    split
    · exact .done hctx
    · refine .settle fun o ho => ?_
      simp only [Except.do_ok_iff, Except.ok.injEq] at ho
      obtain ⟨ctx', hcheck, rfl⟩ := ho
      have hctx' (hlive : Q.live) : ctx' = none := by
        obtain rfl := hctx hlive
        exact (Except.ok.inj hcheck).symm
      exact (acts_mineExecutionBlock fun h => .inl (hctx' h)).andThen fun _ _ _ hctx => ih hctx

theorem acts_setAutomine {enabled : Bool} : Acts E Q n (E.setAutomine n ctx enabled) := by
  refine .executeWrite hpick fun _ hctx => ?_
  split
  · split
    · exact .act hctx .mode
    · exact .done hctx
  · exact (acts_drainPool hctx).andThen fun _ _ _ hctx => .act hctx .mode

theorem acts_setIntervalMining {interval : Int} : Acts E Q n (E.setIntervalMining n ctx interval) := by
  refine .settle fun o ho => ?_
  simp only [Except.do_ok_iff, Except.ok.injEq] at ho
  obtain ⟨-, -, rfl⟩ := ho
  refine .executeWrite hpick fun _ hctx => ?_
  split <;> exact .act hctx .mode

theorem acts_minerStart : Acts E Q n (E.minerStart n ctx) :=
  .executeWrite hpick fun _ hctx => .act hctx .mode

theorem acts_minerStop : Acts E Q n (E.minerStop n ctx) :=
  .executeWrite hpick fun _ hctx => .act hctx .mode

end Picked

theorem run_intervalTick (hpick : Q.live → ctx = none ∨ ctx = some 0) :
    ReflTransGen (E.Act Q) n (E.intervalTick n ctx).node := by
  unfold intervalTick
  split
  · exact .refl
  · split
    · exact .refl
    · have h : ReflTransGen (E.Act Q) n (E.mineExecutionBlock n ctx false).node := (acts_mineExecutionBlock hpick).run
      exact andThen_node (P := ReflTransGen (E.Act Q) n) h fun _ _ => h

/-! ## Every operation -/

/-- The inputs of a command meet a guard. -/
structure Guarded (Q : Guard E.geth.State) (n : Node E.geth.State) (c : Command) : Prop where
  switch : ∀ target, c.op.switchTarget n = some target → Q.switch n target := by exact fun _ _ => trivial
  fork : ∀ name number, c.op = .createBranch name number → Q.fork name := by exact fun _ _ _ => trivial
  checkpoint : ∀ name, c.op = .checkpoint name → Q.checkpoint name := by exact fun _ _ => trivial
  pause : c.op = .pauseFinality → Q.pausing true := by exact fun _ => trivial
  resume : c.op = .resumeFinality → Q.pausing false := by exact fun _ => trivial
  control : ∀ changes, c.op = .applyControl changes → Q.control (cloneControlChanges changes) := by
    exact fun _ _ => trivial
  issue : c.op.request.isSome → Q.issue := by exact fun _ => trivial

/-- The inputs of a command meet a policy. -/
structure Obeys (Q : Policy E.geth.State) (n : Node E.geth.State) (c : Command) : Prop
    extends Guarded Q.toGuard n c where
  send : ∀ tx, c.op = .sendTransaction tx → Q.send n tx := by exact fun _ _ => trivial
  withdraw : ∀ request, c.op = .addWithdrawal request → Q.withdraw request := by exact fun _ _ => trivial
  live : Q.live → c.ctx = none ∨ c.ctx = some 0 := by exact False.elim

/-- Every operation is a run of acts, whether it succeeds or fails. -/
theorem acts_step {c : Command} (h : Obeys Q n c) : ReflTransGen (E.Act Q) n (E.step n c) := by
  obtain ⟨op, ctx⟩ := c
  obtain ⟨⟨hswitch, hfork, hcheckpoint, hpause, hresume, hcontrol, hissue⟩, hsend, hwithdraw, hpick⟩ := h
  cases op with
  | sendTransaction tx => exact (acts_sendTransaction hpick (hsend tx rfl)).run
  | mine count empty => exact (acts_mine hpick).run
  | mineCompatible count timestamp interval => exact (acts_mineCompatible hpick).run
  | missSlots count => exact (acts_missSlots hpick).run
  | applyControl changes => exact (acts_applyControl hpick (hcontrol changes rfl)).run
  | addWithdrawal request => exact (acts_addWithdrawal hpick (hwithdraw request rfl)).run
  | addDepositRequest request => exact (acts_addExecutionRequest hpick (hissue rfl)).run
  | addWithdrawalRequest request => exact (acts_addExecutionRequest hpick (hissue rfl)).run
  | addConsolidationRequest request => exact (acts_addExecutionRequest hpick (hissue rfl)).run
  | setFeeRecipient address => exact (acts_setFeeRecipient hpick).run
  | setAutomine enabled => exact (acts_setAutomine hpick).run
  | setIntervalMining interval => exact (acts_setIntervalMining hpick).run
  | minerStart => exact (acts_minerStart hpick).run
  | minerStop => exact (acts_minerStop hpick).run
  | dropTransaction hash => exact (acts_removePoolTransactions hpick).run
  | dropAllTransactions => exact (acts_removePoolTransactions hpick).run
  | removePoolTransactions address => exact (acts_removePoolTransactions hpick).run
  | createBranch name number => exact (acts_createBranch hpick (hfork name number rfl)).run
  | mineBranch name count => exact (acts_mineBranch hpick).run
  | switchBranch name => exact (acts_switchBranch hpick hswitch).run
  | snapshot => exact (acts_snapshot hpick).run
  | revert id => exact (acts_revert hpick hswitch).run
  | checkpoint name => exact (acts_checkpoint hpick (hcheckpoint name rfl)).run
  | restore name => exact (acts_restore hpick hswitch).run
  | pauseFinality => exact (acts_pauseFinality hpick (hpause rfl)).run
  | resumeFinality => exact (acts_resumeFinality hpick (hresume rfl)).run
  | intervalTick => exact run_intervalTick hpick

/-! ## Operations as moves -/

section Moves

variable {Q : Guard E.geth.State}

theorem Acts.moves {Q : Policy E.geth.State} {o : Outcome E.geth.State α} (h : Acts E Q n o) :
    ReflTransGen (E.Move Q.toGuard) n o.node :=
  h.run.lift' id fun _ _ => Act.moves

theorem moves_switchCanonical {target : Block} {slot : Nat}
    (known : (∃ h, n.db.blockByHash h = some target) ∧ slot = n.slotOf E target ∨
      ∃ p : ChainPoint, n.db.readBlock p.hash p.number = some target ∧ slot = p.slot ∧ p.place ∈ n.chain.points)
    (allowed : Q.switch n target) : ReflTransGen (E.Move Q) n (E.switchCanonical n ctx target slot).node :=
  (acts_switchCanonical (Q := Q.policy) False.elim known allowed).moves

theorem moves_snapshot : ReflTransGen (E.Move Q) n (E.snapshot n ctx).node :=
  (acts_snapshot (Q := Q.policy) False.elim).moves

theorem moves_revert {id : Nat} (hQ : ∀ target, (Op.revert id).switchTarget n = some target → Q.switch n target) :
    ReflTransGen (E.Move Q) n (E.revert n ctx id).node :=
  (acts_revert (Q := Q.policy) False.elim hQ).moves

variable {name : Bytes}

theorem moves_checkpoint (hQ : Q.checkpoint name) :
    ReflTransGen (E.Move Q) n (E.checkpoint n ctx name).node :=
  (acts_checkpoint (Q := Q.policy) False.elim hQ).moves

theorem moves_restore (hQ : ∀ target, (Op.restore name).switchTarget n = some target → Q.switch n target) :
    ReflTransGen (E.Move Q) n (E.restore n ctx name).node :=
  (acts_restore (Q := Q.policy) False.elim hQ).moves

/-- Every operation is a run of moves, whether it succeeds or fails. -/
theorem moves_step {c : Command} (h : Guarded Q n c) : ReflTransGen (E.Move Q) n (E.step n c) := by
  have hobeys : Obeys Q.policy n c := { h with }
  exact (acts_step hobeys).lift' id fun _ _ => Act.moves

end Moves

end Env

end Ethertest
