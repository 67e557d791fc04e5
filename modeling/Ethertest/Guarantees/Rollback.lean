-- SUMMARY: A command about the next block that fails leaves the node as it was.
import Ethertest.Commands.InPlace
import Ethertest.Refinement.Operations
import Ethertest.Reference

/-!
# Failed commands leave no trace

Sending and dropping transactions, adding withdrawals and requests, setting the fee
recipient and missing slots either succeed or leave the whole node as it was, unless they
disabled writes. That holds for every node, every way in which building a block may fail
and every moment at which the context may be cancelled.
-/

namespace Ethertest

namespace Env

variable {E : Env} {n : Node E.geth.State} {ctx : Ctx} {α : Type}

/-! ## Outcomes without a trace -/

/-- If the outcome is an error, the node is unchanged or writes are disabled. -/
def Traceless (n : Node E.geth.State) (o : Outcome E.geth.State α) : Prop :=
  ∀ err, o.result = .error err → o.node.writeErr = none → o.node = n

namespace Traceless

theorem fail {err : Error} : Traceless n (.fail n err : Outcome E.geth.State α) := fun _ _ _ => rfl

theorem done {n' : Node E.geth.State} {value : α} : Traceless n (.done n' value ctx) := fun _ h => nomatch h

theorem settle {prepared : Except Error (Outcome E.geth.State α)} (h : ∀ o, prepared = .ok o → Traceless n o) :
    Traceless n (.settle n prepared) := by
  cases prepared with
  | error err => exact fail
  | ok o => exact h o rfl

theorem executeWrite {command : Node E.geth.State → Ctx → Outcome E.geth.State α}
    (h : ∀ ctx, Traceless n (command n ctx)) : Traceless n (n.executeWrite ctx command) := by
  refine settle fun o ho => ?_
  simp only [Except.do_ok_iff, Except.ok.injEq] at ho
  obtain ⟨ctx', -, -, -, rfl⟩ := ho
  exact h ctx'

end Traceless

/-! ## The commands -/

theorem traceless_sendTransaction {tx : Transaction} : Traceless n (E.sendTransaction n ctx tx) := by
  refine .executeWrite fun ctx => .settle fun o ho => ?_
  simp only [Except.do_ok_iff] at ho
  obtain ⟨pool, -, ho⟩ := ho
  split at ho
  · have hcases : _ ∨ _ := @mineExecutionBlock_cases E { n with pool := pool } ctx false
    rcases hcases with ⟨err, hfail⟩ | ⟨x, ctx', m, -, -, hmined⟩
    · -- nothing was committed, and the pool is put back
      rw [hfail] at ho
      rw [Except.ok.inj (ho.symm.trans (if_pos rfl))]
      exact .fail
    · rw [hmined] at ho
      split at ho
      · rw [← Except.ok.inj ho]
        exact .done
      · next err hresult =>
        -- the block stays, and writes are disabled
        have herr := rebuildAfterCommit_error hresult
        rw [← rebuildAfterCommit_node] at herr
        split at ho <;> rw [← Except.ok.inj ho] <;> exact fun _ _ hwrites => absurd hwrites herr
  · simp only [Except.do_ok_iff, Except.ok.injEq] at ho
    obtain ⟨⟨candidate, ctx'⟩, -, rfl⟩ := ho
    exact .done

theorem traceless_removePoolTransactions {hash : Option Hash} {address : Option Address} :
    Traceless n (E.removePoolTransactions n ctx hash address) := by
  refine .executeWrite fun _ => .settle fun o ho => ?_
  simp only at ho
  split at ho
  · rw [← Except.ok.inj ho]
    exact .done
  · simp only [Except.do_ok_iff, Except.ok.injEq] at ho
    obtain ⟨⟨n', ctx'⟩, -, rfl⟩ := ho
    exact .done

theorem traceless_setFeeRecipient {address : Address} : Traceless n (E.setFeeRecipient n ctx address) := by
  refine .executeWrite fun _ => .settle fun o ho => ?_
  simp only [Except.do_ok_iff, Except.ok.injEq] at ho
  obtain ⟨⟨n', ctx'⟩, -, rfl⟩ := ho
  exact .done

theorem traceless_addWithdrawal {request : WithdrawalRequest} : Traceless n (E.addWithdrawal n ctx request) := by
  refine .settle fun o ho => ?_
  simp only [Except.do_ok_iff, Except.ok.injEq] at ho
  obtain ⟨-, -, rfl⟩ := ho
  refine .executeWrite fun _ => .settle fun o ho => ?_
  simp only [Except.do_ok_iff, Except.ok.injEq] at ho
  obtain ⟨-, -, ⟨n', ctx'⟩, -, rfl⟩ := ho
  exact .done

theorem traceless_addExecutionRequest {requestType : UInt8} {data : Bytes} :
    Traceless n (E.addExecutionRequest n ctx requestType data) := by
  refine .executeWrite fun _ => .settle fun o ho => ?_
  simp only [Except.do_ok_iff, Except.ok.injEq] at ho
  obtain ⟨proposed, -, ⟨candidate, ctx'⟩, -, put, -, n', -, rfl⟩ := ho
  exact .done

theorem traceless_missSlots {count : Nat} : Traceless n (E.missSlots n ctx count) := by
  refine .settle fun o ho => ?_
  simp only [Except.do_ok_iff, Except.ok.injEq] at ho
  obtain ⟨-, -, -, -, rfl⟩ := ho
  refine .executeWrite fun _ => .settle fun o ho => ?_
  simp only [Except.do_ok_iff] at ho
  obtain ⟨-, -, ctx₁, -, ctx₂, -, ho⟩ := ho
  split at ho
  · rw [← Except.ok.inj ho]
    exact .done
  · simp only [Except.do_ok_iff, Except.ok.injEq] at ho
    obtain ⟨⟨pending, ctx₃⟩, -, n', -, rfl⟩ := ho
    exact .done

theorem Traceless.status {o : Outcome E.geth.State α} (h : Traceless n o) {err : Error}
    (herr : o.status.2 = .error err) (hwrites : o.status.1.writeErr = none) : o.status.1 = n := by
  cases hresult : o.result with
  | ok result =>
    rw [Outcome.status, hresult] at herr
    cases herr
  | error err => exact h err hresult hwrites

end Env

/-- The operations that only change the inputs of the next block or the slot. -/
def Op.undone : Op → Bool
  | .sendTransaction _ | .addWithdrawal _ | .addDepositRequest _ | .addWithdrawalRequest _
  | .addConsolidationRequest _ | .setFeeRecipient _ | .dropTransaction _ | .dropAllTransactions
  | .removePoolTransactions _ | .missSlots _ => true
  | _ => false

/-- A failed operation leaves no trace: changed in place and undone by hand, the node is
the one before, in all its parts. -/
theorem failed_leaves_no_trace {E : Env} {n : Node E.geth.State} {c : Command} {err : Error}
    (hop : c.op.undone = true) (hfailed : (E.executeInPlace n c).2 = .error err)
    (hwrites : (E.executeInPlace n c).1.writeErr = none) : (E.executeInPlace n c).1 = n := by
  rw [Env.executeInPlace_eq] at hfailed hwrites ⊢
  obtain ⟨op, ctx⟩ := c
  cases op with
  | sendTransaction tx => exact Env.traceless_sendTransaction.status hfailed hwrites
  | addWithdrawal request => exact Env.traceless_addWithdrawal.status hfailed hwrites
  | addDepositRequest request => exact Env.traceless_addExecutionRequest.status hfailed hwrites
  | addWithdrawalRequest request => exact Env.traceless_addExecutionRequest.status hfailed hwrites
  | addConsolidationRequest request => exact Env.traceless_addExecutionRequest.status hfailed hwrites
  | setFeeRecipient address => exact Env.traceless_setFeeRecipient.status hfailed hwrites
  | dropTransaction hash => exact Env.traceless_removePoolTransactions.status hfailed hwrites
  | dropAllTransactions => exact Env.traceless_removePoolTransactions.status hfailed hwrites
  | removePoolTransactions address => exact Env.traceless_removePoolTransactions.status hfailed hwrites
  | missSlots count => exact Env.traceless_missSlots.status hfailed hwrites
  | _ => cases hop

namespace Reference

/-- The context is cancelled when the view is rebuilt. -/
theorem failed_leaves_no_trace_cancelled :
    (env.executeInPlace start ⟨.setFeeRecipient 9, some 1⟩).2 = .error .canceled ∧
    (env.executeInPlace start ⟨.setFeeRecipient 9, some 1⟩).1 = start := by
  have hfailed : (env.executeInPlace start ⟨.setFeeRecipient 9, some 1⟩).2 = .error .canceled := by decide +kernel
  exact ⟨hfailed, failed_leaves_no_trace rfl hfailed (by decide +kernel)⟩

end Reference

end Ethertest
