-- SUMMARY: The commands that change the node in place and undo the change if the pending view cannot be rebuilt.
import Ethertest.Run

/-!
# Changes in place

Some commands of the source change the node first and rebuild the pending view then. If
that fails, they undo the change by hand: with a snapshot of the pool, by dropping the last
withdrawal, with the saved recipient. Here they are written that way, and each is shown to
be the command of the model, which prepares everything before it changes the node.
-/

namespace Ethertest

namespace Env

variable (E : Env)

/-- `SendTransaction`, statement by statement -/
def sendTransactionInPlace (n : Node E.geth.State) (ctx : Ctx) (tx : Transaction) : Outcome E.geth.State Hash :=
  n.executeWrite ctx fun n ctx =>
    let snapshot := n.pool
    let oldHead := n.db.headHash
    match E.addTransaction n tx with
    | .error err => .fail n err
    | .ok pool =>
      let n := { n with pool := pool }
      if n.miningMode = .transaction then
        let mined := E.mineExecutionBlock n ctx false
        match mined.result with
        | .error err =>
          if mined.node.db.headHash = oldHead then .fail { mined.node with pool := snapshot } err
          else .fail mined.node err
        | .ok (_, ctx) =>
          .done { mined.node with pendingEvents := mined.node.pendingEvents.record tx.hash } tx.hash ctx
      else
        match E.pendingCandidate n ctx n.pendingExecutionRequests with
        | .error err => .fail { n with pool := snapshot } err
        | .ok (candidate, ctx) =>
          let n := n.setPendingView candidate
          .done { n with pendingEvents := n.pendingEvents.record tx.hash } tx.hash ctx

/-- `removePoolTransactions`, statement by statement -/
def removePoolTransactionsInPlace (n : Node E.geth.State) (ctx : Ctx) (hash : Option Hash)
    (address : Option Address) : Outcome E.geth.State Nat :=
  n.executeWrite ctx fun n ctx =>
    let snapshot := n.pool
    let removed := E.removeSelected n fun sender tx =>
      address.elim true (sender = ·) && hash.elim true (tx.hash = ·)
    if removed.2 = 0 then .done n 0 ctx
    else
      let n := { n with pool := removed.1 }
      match E.rebuildPendingView n ctx with
      | .error err => .fail { n with pool := snapshot } err
      | .ok (n, ctx) => .done n removed.2 ctx

/-- `SetFeeRecipient`, statement by statement -/
def setFeeRecipientInPlace (n : Node E.geth.State) (ctx : Ctx) (address : Address) : Outcome E.geth.State Unit :=
  n.executeWrite ctx fun n ctx =>
    let previous := n.feeRecipient
    let n := { n with feeRecipient := address }
    match E.rebuildPendingView n ctx with
    | .error err => .fail { n with feeRecipient := previous } err
    | .ok (n, ctx) => .done n () ctx

/-- `AddWithdrawal`, statement by statement -/
def addWithdrawalInPlace (n : Node E.geth.State) (ctx : Ctx) (request : WithdrawalRequest) :
    Outcome E.geth.State Unit :=
  if request.amount = 0 then .fail n (.new "withdrawal amount must be greater than zero")
  else n.executeWrite ctx fun n ctx =>
    if maxWithdrawalsPerBlock ≤ n.pendingWithdrawals.length then
      .fail n (.new "next block already has 16 withdrawals")
    else
      let n := { n with pendingWithdrawals := n.pendingWithdrawals ++ [request] }
      match E.rebuildPendingView n ctx with
      | .error err => .fail { n with pendingWithdrawals := n.pendingWithdrawals.dropLast } err
      | .ok (n, ctx) => .done n () ctx

/-- Execute one operation, with changes in place where the source makes them. -/
def executeInPlace (n : Node E.geth.State) (c : Command) : Node E.geth.State × Except Error Unit :=
  match c.op with
  | .sendTransaction tx => (E.sendTransactionInPlace n c.ctx tx).status
  | .addWithdrawal request => (E.addWithdrawalInPlace n c.ctx request).status
  | .setFeeRecipient address => (E.setFeeRecipientInPlace n c.ctx address).status
  | .dropTransaction hash => (E.removePoolTransactionsInPlace n c.ctx (some hash) none).status
  | .dropAllTransactions => (E.removePoolTransactionsInPlace n c.ctx none none).status
  | .removePoolTransactions address => (E.removePoolTransactionsInPlace n c.ctx none (some address)).status
  | _ => E.execute n c

/-! ## The same commands -/

variable {E} {n : Node E.geth.State} {ctx : Ctx}

theorem executeWrite_congr {α : Type} {command command' : Node E.geth.State → Ctx → Outcome E.geth.State α}
    (h : ∀ ctx, command n ctx = command' n ctx) : n.executeWrite ctx command = n.executeWrite ctx command' := by
  simp only [Node.executeWrite, h]

theorem sendTransactionInPlace_eq {tx : Transaction} :
    E.sendTransactionInPlace n ctx tx = E.sendTransaction n ctx tx := by
  refine executeWrite_congr fun ctx => ?_
  cases hadd : E.addTransaction n tx with
  | error err => rfl
  | ok pool =>
    simp only [Except.ok_do]
    by_cases hmode : n.miningMode = .transaction
    · rw [if_pos hmode, if_pos hmode]
      cases (E.mineExecutionBlock { n with pool := pool } ctx false).result with
      | ok result => rfl
      | error err =>
        simp only
        split <;> rfl
    · rw [if_neg hmode, if_neg hmode]
      cases hcandidate : E.pendingCandidate { n with pool := pool } ctx n.pendingExecutionRequests with
      | ok result => simp only [Except.ok_do]; rfl
      | error err => rfl

/-- A change whose view can be rebuilt is kept; one whose view cannot is undone. -/
theorem settle_view {α : Type} (changed : Node E.geth.State) (undone : Node E.geth.State)
    (hundo : undone = n) (value : α) :
    (match E.rebuildPendingView changed ctx with
    | .error err => Outcome.fail undone err
    | .ok (n, ctx) => .done n value ctx) =
      .settle n (do
        let (n, ctx) ← E.rebuildPendingView changed ctx
        .ok (.done n value ctx)) := by
  subst hundo
  cases E.rebuildPendingView changed ctx <;> rfl

theorem removePoolTransactionsInPlace_eq {hash : Option Hash} {address : Option Address} :
    E.removePoolTransactionsInPlace n ctx hash address = E.removePoolTransactions n ctx hash address := by
  refine executeWrite_congr fun ctx => ?_
  simp only
  split
  · rfl
  · exact settle_view _ _ rfl _

private theorem setFeeRecipientInPlace_eq {address : Address} :
    E.setFeeRecipientInPlace n ctx address = E.setFeeRecipient n ctx address :=
  executeWrite_congr fun _ => settle_view _ _ rfl _

private theorem addWithdrawalInPlace_eq {request : WithdrawalRequest} :
    E.addWithdrawalInPlace n ctx request = E.addWithdrawal n ctx request := by
  unfold addWithdrawalInPlace addWithdrawal
  by_cases hamount : request.amount = 0
  · simp only [failIf, if_pos hamount]
    rfl
  · simp only [failIf, if_neg hamount, Except.ok_do, Outcome.settle_ok]
    refine executeWrite_congr fun ctx => ?_
    by_cases hroom : maxWithdrawalsPerBlock ≤ n.pendingWithdrawals.length
    · rw [if_pos hroom, if_pos hroom]
      rfl
    · rw [if_neg hroom, if_neg hroom]
      refine settle_view _ _ ?_ _
      simp only [List.dropLast_concat]

/-- Changing in place and undoing it is what the model does. -/
theorem executeInPlace_eq (n : Node E.geth.State) (c : Command) : E.executeInPlace n c = E.execute n c := by
  obtain ⟨op, ctx⟩ := c
  cases op with
  | sendTransaction tx => exact congrArg Outcome.status sendTransactionInPlace_eq
  | addWithdrawal request => exact congrArg Outcome.status addWithdrawalInPlace_eq
  | setFeeRecipient address => exact congrArg Outcome.status setFeeRecipientInPlace_eq
  | dropTransaction hash => exact congrArg Outcome.status removePoolTransactionsInPlace_eq
  | dropAllTransactions => exact congrArg Outcome.status removePoolTransactionsInPlace_eq
  | removePoolTransactions address => exact congrArg Outcome.status removePoolTransactionsInPlace_eq
  | _ => rfl

end Env

end Ethertest
