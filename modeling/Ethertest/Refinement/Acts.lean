-- SUMMARY: The completed changes that the commands make, with what they leave in memory.
import Ethertest.Refinement.Moves
import Ethertest.Run

/-!
# Acts

A move says what a command commits. An act is a completed change of the whole node: the
commit, what goes with it in memory, and the pending view that is published at its end.
Every act is a few moves. What holds between the parts of a command is not observed, so
the parts of the node that are not in the ledger are followed by acts.
-/

namespace Ethertest

/-! ## Contexts that are never cancelled -/

namespace Env

variable {E : Env} {n : Node E.geth.State} {ctx ctx' : Ctx}

variable {empty : Bool} {slot : Nat} {queue : ExecutionRequestQueue} {n' : Node E.geth.State}
  {x : Extension} {address : Address} {state : E.geth.State} {parent : Block} {native : Option AccessList}
  {changes : ControlChanges}

theorem buildBlockAtSlot_checks {root : Hash} :
    Ctx.Checks fun ctx => E.buildBlockAtSlot n ctx empty root slot :=
  .lift fun _ => .lift fun _ => .lift fun _ => .lift fun _ => .lift fun _ => .lift fun _ =>
    .bind generateBlock_checks fun _ => .ok _

theorem pendingCandidateAtSlot_checks : Ctx.Checks fun ctx => E.pendingCandidateAtSlot n ctx queue slot :=
  .lift fun _ => .lift fun _ => .bind buildBlockAtSlot_checks fun _ =>
    .lift fun _ => .lift fun _ => .lift fun _ => .lift fun _ => .ok _

theorem pendingCandidate_checks : Ctx.Checks fun ctx => E.pendingCandidate n ctx queue :=
  .lift fun _ => pendingCandidateAtSlot_checks

theorem rebuildPendingView_spec (h : E.rebuildPendingView n ctx = .ok (n', ctx')) :
    ∃ candidate, E.pendingCandidate n ctx n.pendingExecutionRequests = .ok (candidate, ctx') ∧
      n' = n.setPendingView candidate := by
  simp only [rebuildPendingView, Except.do_ok_iff, Except.ok.injEq, Prod.mk.injEq] at h
  obtain ⟨⟨candidate, ctx₁⟩, hcandidate, rfl, rfl⟩ := h
  exact ⟨candidate, hcandidate, rfl⟩

theorem rebuildPendingView_live (h : E.rebuildPendingView n none = .ok (n', ctx')) : ctx' = none := by
  obtain ⟨candidate, hcandidate, rfl⟩ := rebuildPendingView_spec h
  exact pendingCandidate_checks.live hcandidate

/-- No block is planned on a context that is cancelled before. -/
theorem planMine_live (h : E.planMine n ctx empty = .ok (x, ctx')) (hctx : ctx = none ∨ ctx = some 0) :
    ctx' = none := by
  obtain ⟨parent, projection, built, p, receipts, stored, put, committed, -, -, hbuild, -⟩ := planMine_ok h
  have hbuild := (buildBlock_ok hbuild).2
  rcases hctx with rfl | rfl
  · exact buildBlockAtSlot_checks.live hbuild
  · simp only [buildBlockAtSlot, generateBlock, Except.do_ok_iff] at hbuild
    obtain ⟨_, _, _, _, _, _, _, _, _, _, _, _, _, ⟨_, hcheck, _⟩, _⟩ := hbuild
    cases hcheck

private theorem clearStorage_checks (keys : List (Option Hash)) (diff : Store Hash Hash) :
    Ctx.Checks fun ctx => clearStorage address keys ctx diff := by
  induction keys generalizing diff with
  | nil => exact .ok diff
  | cons key keys ih => exact .check (.lift fun _ => ih _)

private theorem expandChange_checks {change : AccountChanges} :
    Ctx.Checks (E.expandChange state parent native address change) := by
  unfold expandChange
  cases change.storage with
  | none => exact .ok change
  | some storage => exact .lift fun _ => .bind (clearStorage_checks ..) fun _ => .ok _

private theorem expandStorageReplacements_checks :
    Ctx.Checks fun ctx => E.expandStorageReplacements ctx parent native changes := by
  refine .lift fun state => .foldlM (fun acc item => ?_) _ _
  dsimp only
  exact .bind expandChange_checks fun change => .ok (acc.insert item.1 change)

private theorem overrideBlock_live {block : Block} {generated : Generated E.geth.State}
    (h : E.overrideBlock none parent generated changes = .ok (block, state, ctx')) : ctx' = none := by
  by_cases hA : E.geth.isAmsterdam E.config generated.block.number generated.block.time
  · simp only [overrideBlock, hA, if_true, Except.do_ok_iff, Except.unit_ok_iff, Except.ok.injEq,
      Prod.mk.injEq] at h
    obtain ⟨⟨executed, ctx₁⟩, hexpand, state₁, -, -, ⟨state₂, list⟩, -, -, -, rfl⟩ := h
    exact expandStorageReplacements_checks.live hexpand
  · simp only [overrideBlock, hA, Bool.false_eq_true, if_false, Except.do_ok_iff, Except.ok.injEq,
      Prod.mk.injEq] at h
    obtain ⟨⟨executed, ctx₁⟩, hsame, state₁, -, ⟨state₂, list⟩, -, -, -, rfl⟩ := h
    exact (Prod.mk.inj hsame).2.symm

theorem planControl_live (h : E.planControl n none changes = .ok (x, ctx')) : ctx' = none := by
  obtain ⟨parent, projection, withdrawals, state, g, ctx₁, block, overridden, p, receipts, stored, put, committed,
    -, -, -, -, hgen, hoverride, -⟩ := planControl_ok h
  obtain rfl := generateBlock_checks.live hgen
  exact overrideBlock_live hoverride

end Env

/-! ## The acts -/

/-- Conditions on the inputs of a run: those of a guard, on the transactions and withdrawals that
are sent, and whether the contexts of operations that were started are never cancelled. -/
structure Policy (σ : Type) extends Guard σ where
  send : Node σ → Transaction → Prop := fun _ _ => True
  withdraw : WithdrawalRequest → Prop := fun _ => True
  live : Prop := False

/-- A guard, and nothing else. -/
def Guard.policy {σ : Type} (Q : Guard σ) : Policy σ := { Q with }

namespace Env

variable (E : Env)

/-- The node after its pending view was rebuilt following a commit; a failure disables writes. -/
def rebuilt (n : Node E.geth.State) (ctx : Ctx) : Node E.geth.State :=
  match E.rebuildPendingView n ctx with
  | .ok (n', _) => n'
  | .error err => n.disableWrites err

/-- One completed change of a node, as the commands make them, with inputs that meet `Q`. -/
inductive Act (Q : Policy E.geth.State) (n : Node E.geth.State) : Node E.geth.State → Prop
  | mine {m : Node E.geth.State} {ctx ctx' : Ctx} {empty : Bool} {x : Extension}
      (plan : E.planMine n ctx empty = .ok (x, ctx'))
      (commit : E.commitPrepared n (E.mineOperation n x) (E.mineEvents n x) (.extend x.block x.receipts)
        (E.mineApply n x) = .ok m)
      (live : Q.live → ctx' = none) : Act Q n (E.rebuilt { m with pendingWithdrawals := [] } ctx')
  | control {m : Node E.geth.State} {ctx ctx' : Ctx} {changes : ControlChanges} {x : Extension}
      (plan : E.planControl n ctx changes = .ok (x, ctx'))
      (commit : E.commitPrepared n (E.controlOperation n x changes) (E.controlEvents n x)
        (.extend x.block x.receipts) (E.controlApply n x) = .ok m)
      (live : Q.live → ctx' = none) (allowed : Q.control changes) :
      Act Q n (E.rebuilt { m with pendingWithdrawals := [] } ctx')
  | branch {n' : Node E.geth.State} {ctx ctx' : Ctx} {name : Bytes} {item : Branch} {x : Extension}
      (named : n.branches[name]? = some item) (plan : E.planBranch n ctx item = .ok (x, ctx'))
      (commit : E.commitPrepared n (E.branchOperation n item x) [] (.store x.block x.receipts)
        (E.branchApply n item x) = .ok n') : Act Q n n'
  | switch {m : Node E.geth.State} {ctx : Ctx} {target : Block} {slot : Nat} {w : Switch}
      (known : (∃ h, n.db.blockByHash h = some target) ∧ slot = n.slotOf E target ∨
        ∃ p : ChainPoint, n.db.readBlock p.hash p.number = some target ∧ slot = p.slot ∧ p.place ∈ n.chain.points)
      (allowed : Q.switch n target) (plan : E.planSwitch n target slot = .ok w)
      (commit : E.commitPrepared n (w.operation E n.toLedger) (w.events E n.toLedger) (.setHead target)
        (E.switchApply n w) = .ok m)
      (live : Q.live → ctx = none) : Act Q n (E.rebuilt m ctx)
  | note {n' : Node E.geth.State} (note : E.Note Q.toGuard n n') : Act Q n n'
  | send {ctx ctx' : Ctx} {tx : Transaction} {pool : TransactionPool}
      {candidate : Candidate E.geth.State} (allowed : Q.send n tx) (added : E.addTransaction n tx = .ok pool)
      (pending : E.pendingCandidate { n with pool := pool } ctx n.pendingExecutionRequests = .ok (candidate, ctx')) :
      Act Q n { ({ n with pool := pool } : Node E.geth.State).setPendingView candidate with
        pendingEvents := n.pendingEvents.record tx.hash }
  | sendMined {m r : Node E.geth.State} {ctx ctx' : Ctx} {tx : Transaction} {pool pool' : TransactionPool}
      {x : Extension} {events : PendingHashLog} (allowed : Q.send n tx) (added : E.addTransaction n tx = .ok pool)
      (plan : E.planMine { n with pool := pool } ctx false = .ok (x, ctx'))
      (commit : E.commitPrepared { n with pool := pool } (E.mineOperation { n with pool := pool } x)
        (E.mineEvents { n with pool := pool } x) (.extend x.block x.receipts)
        (E.mineApply { n with pool := pool } x) = .ok m)
      (live : Q.live → ctx' = none) (mined : r = E.rebuilt { m with pendingWithdrawals := [] } ctx')
      (ends : pool' = r.pool ∨ r.writeErr ≠ none ∧ pool' = n.pool) :
      Act Q n { r with pool := pool', pendingEvents := events }
  | drop {n' : Node E.geth.State} {ctx ctx' : Ctx} {select : Address → Transaction → Bool}
      (view : E.rebuildPendingView { n with pool := (E.removeSelected n select).1 } ctx = .ok (n', ctx')) : Act Q n n'
  | recipient {n' : Node E.geth.State} {ctx ctx' : Ctx} {address : Address}
      (view : E.rebuildPendingView { n with feeRecipient := address } ctx = .ok (n', ctx')) : Act Q n n'
  | withdraw {n' : Node E.geth.State} {ctx ctx' : Ctx} {request : WithdrawalRequest}
      (allowed : Q.withdraw request) (room : n.pendingWithdrawals.length < maxWithdrawalsPerBlock)
      (view : E.rebuildPendingView { n with pendingWithdrawals := n.pendingWithdrawals ++ [request] } ctx =
        .ok (n', ctx')) : Act Q n n'
  | mode {mode resume : MiningMode} {interval : Int} {empty : Bool} :
      Act Q n { n with
        miningMode := mode, resumeMiningMode := resume, miningInterval := interval, miningEmpty := empty }

variable {E} {Q : Policy E.geth.State} {n n' : Node E.geth.State} {ctx ctx' : Ctx}

/-! ## What an act leaves of the ledger -/

/-- Rebuilding the pending view leaves the ledger alone. -/
theorem rebuildPendingView_ledger {n₀ : Node E.geth.State} (h : E.rebuildPendingView n₀ ctx = .ok (n', ctx'))
    (hsame : n₀.toLedger = n.toLedger) : n'.toLedger = n.toLedger := by
  obtain ⟨candidate, -, rfl⟩ := rebuildPendingView_spec h
  exact hsame

/-- What a rebuilt node is: the view of a candidate was published, or writes were disabled. -/
theorem rebuilt_cases (n : Node E.geth.State) (ctx : Ctx) :
    (∃ candidate ctx', E.pendingCandidate n ctx n.pendingExecutionRequests = .ok (candidate, ctx') ∧
      E.rebuilt n ctx = n.setPendingView candidate) ∨
    ∃ err, E.pendingCandidate n ctx n.pendingExecutionRequests = .error err ∧
      E.rebuilt n ctx = n.disableWrites err := by
  unfold rebuilt rebuildPendingView
  cases h : E.pendingCandidate n ctx n.pendingExecutionRequests with
  | error err => exact .inr ⟨err, rfl, rfl⟩
  | ok result => exact .inl ⟨result.1, result.2, rfl, rfl⟩

theorem rebuilt_ledger (n : Node E.geth.State) (ctx : Ctx) : (E.rebuilt n ctx).toLedger = n.toLedger := by
  rcases rebuilt_cases n ctx with ⟨candidate, ctx', -, h⟩ | ⟨err, -, h⟩ <;> rw [h] <;> rfl

/-- A block was committed on the head: its withdrawals are spent and the view is rebuilt. -/
theorem rebuilt_spent_ledger (m : Node E.geth.State) (ctx : Ctx) :
    (E.rebuilt { m with pendingWithdrawals := [] } ctx).toLedger = m.toLedger :=
  rebuilt_ledger _ _

open Relation (ReflTransGen)

/-- Every act is a few moves. -/
theorem Act.moves (h : E.Act Q n n') : ReflTransGen (E.Move Q.toGuard) n n' := by
  cases h with
  | mine plan commit => exact (ReflTransGen.single (.mine plan commit)).tail (.other (rebuilt_spent_ledger _ _))
  | control plan commit live allowed =>
    exact (ReflTransGen.single (.control plan commit allowed)).tail (.other (rebuilt_spent_ledger _ _))
  | branch named plan commit => exact .single (.branch named plan commit)
  | switch known allowed plan commit =>
    exact (ReflTransGen.single (.switch known allowed plan commit)).tail (.other (rebuilt_ledger _ _))
  | note note => exact .single (.note note)
  | send allowed added pending => exact .single (.other rfl)
  | @sendMined m r _ ctx' tx pool pool' x events allowed added plan commit live mined ends =>
    -- the block is mined on the node with the new pool
    have hpooled : E.Move Q.toGuard n { n with pool := pool } := .other rfl
    have hmine : E.Move Q.toGuard { n with pool := pool } m := .mine plan commit
    have hledger : r.toLedger = m.toLedger := mined ▸ rebuilt_spent_ledger m ctx'
    exact ((ReflTransGen.single hpooled).tail hmine).tail (.other hledger)
  | drop view => exact .single (.other (rebuildPendingView_ledger view rfl))
  | recipient view => exact .single (.other (rebuildPendingView_ledger view rfl))
  | withdraw allowed room view => exact .single (.other (rebuildPendingView_ledger view rfl))
  | mode => exact .single (.other rfl)

end Env

end Ethertest
