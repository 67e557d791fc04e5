-- SUMMARY: Commands about the next block: transactions, withdrawals, requests, the fee recipient and the mining mode.
import Ethertest.Commands.Mine

/-!
# Commands about the next block

Each of these changes one input of the pending block and publishes the pending view
anew. If that fails, the input is put back.
-/

namespace Ethertest

namespace Env

variable (E : Env)

/-! ## The transaction pool -/

/-- The transaction as geth's validator takes it: with cell proofs. -/
def validationTransaction (header : Header) (tx : Transaction) : Except Error Transaction :=
  match tx.sidecar with
  | none => .ok tx
  | some sidecar => do
    let expected := if E.geth.isOsaka E.config header.number header.time then 1 else 0
    failIf (sidecar.version ≠ expected)
      (.errorf "%w: unexpected sidecar version, want: %d, got: %d"
        [.name "txpool.ErrSidecarFormatError", .num expected, .num sidecar.version])
    if sidecar.version = 0 then
      match E.geth.sidecarToV1 sidecar with
      | .ok converted => .ok { tx with sidecar := some converted }
      | .error err => .error (.wrap "txpool.ErrKZGVerificationError: convert blob sidecar: %v" err)
    else .ok tx

/-- The bundle of a blob transaction. -/
def retainedBundle (tx : Transaction) : Except Error (Option BlobBundle) :=
  match tx.sidecar with
  | none => .ok none
  | some sidecar =>
    match newBlobBundle E.geth sidecar with
    | .ok bundle => .ok (some bundle)
    | .error err => .error (.wrap "txpool.ErrKZGVerificationError: %v" err)

/-- A replacement must raise both caps by a tenth. -/
def checkReplacement (tx : Transaction) : Option Transaction → Except Error Unit
  | none => .ok ()
  | some previous =>
    failIf (tx.gasFeeCap < previous.gasFeeCap * 110 / 100 ∨ tx.gasTipCap < previous.gasTipCap * 110 / 100)
      (.new "replacement transaction underpriced")

/-- The pool with a transaction put in; a replacement keeps the arrival number. -/
def insertTransaction (p : TransactionPool) (sender : Address) (tx : Transaction)
    (bundle : Option BlobBundle) : TransactionPool :=
  let byNonce := p.pending[sender]?.getD ∅
  let p := match byNonce[tx.nonce]? with
    | some previous =>
      { p with
        arrival := (p.arrival.insert tx.hash (p.arrival[previous.hash]?.getD 0)).erase previous.hash
        blobs := p.blobs.erase previous.hash }
    | none =>
      let next := (p.nextArrival + 1) % 2 ^ 64
      { p with nextArrival := next, arrival := p.arrival.insert tx.hash next }
  { p with
    pending := p.pending.insert sender (byNonce.insert tx.nonce tx)
    blobs := bundle.elim p.blobs fun b => p.blobs.insert tx.hash b }

def addTransaction (n : Node E.geth.State) (tx : Transaction) : Except Error TransactionPool := do
  let head ← n.head
  let header := n.pendingView.elim head.header fun view => view.block.header
  let validationTx ← E.validationTransaction header tx
  E.geth.validateTransaction E.config header validationTx
  let sender := match E.geth.sender E.config header.number header.time tx with
    | .ok address => address
    | .error _ => 0
  let state ← E.geth.openState head.root
  checkReplacement tx (n.pool.lookup sender tx.nonce)
  E.geth.validateTransactionWithState E.config header validationTx state
    { existingExpenditure := fun address =>
        ((n.pool.pending[address]?.getD ∅).toList.map fun item => item.2.cost).sum
      existingCost := fun address nonce => (n.pool.lookup address nonce).map (·.cost) }
  let bundle ← E.retainedBundle tx
  .ok (insertTransaction n.pool sender tx bundle)

/-- `SendTransaction` -/
def sendTransaction (n : Node E.geth.State) (ctx : Ctx) (tx : Transaction) : Outcome E.geth.State Hash :=
  n.executeWrite ctx fun n ctx => .settle n do
    let pool ← E.addTransaction n tx
    let pooled := { n with pool := pool }
    let announce (n : Node E.geth.State) (ctx : Ctx) : Outcome E.geth.State Hash :=
      .done { n with pendingEvents := n.pendingEvents.record tx.hash } tx.hash ctx
    if n.miningMode = .transaction then
      let mined := E.mineExecutionBlock pooled ctx false
      match mined.result with
      | .ok (_, ctx) => .ok (announce mined.node ctx)
      | .error err =>
        -- the pool is put back only if no block was committed
        if mined.node.db.headHash = n.db.headHash then .ok (.fail { mined.node with pool := n.pool } err)
        else .ok (.fail mined.node err)
    else do
      let (candidate, ctx) ← E.pendingCandidate pooled ctx n.pendingExecutionRequests
      .ok (announce (pooled.setPendingView candidate) ctx)

/-- The pool without the transactions that a predicate selects, and their number. A bundle
that is not persisted goes with its transaction. -/
def removeSelected (n : Node E.geth.State) (select : Address → Transaction → Bool) :
    TransactionPool × Nat :=
  n.pool.pending.toList.foldl
    (fun acc byNonce => byNonce.2.toList.foldl
      (fun acc item =>
        if select byNonce.1 item.2 then
          let p := acc.1
          let left := (p.pending[byNonce.1]?.getD ∅).erase item.1
          ({ p with
             pending := if left.isEmpty then p.pending.erase byNonce.1 else p.pending.insert byNonce.1 left
             arrival := p.arrival.erase item.2.hash
             blobs := if n.db.has (.blob item.2.hash) then p.blobs else p.blobs.erase item.2.hash },
            acc.2 + 1)
        else acc) acc)
    (n.pool, 0)

/-- `removePoolTransactions` -/
def removePoolTransactions (n : Node E.geth.State) (ctx : Ctx) (hash : Option Hash)
    (address : Option Address) : Outcome E.geth.State Nat :=
  n.executeWrite ctx fun n ctx => .settle n do
    let (pool, count) := E.removeSelected n fun sender tx =>
      address.elim true (sender = ·) && hash.elim true (tx.hash = ·)
    if count = 0 then .ok (.done n 0 ctx)
    else do
      let (n, ctx) ← E.rebuildPendingView { n with pool := pool } ctx
      .ok (.done n count ctx)

/-- `DropTransaction` -/
def dropTransaction (n : Node E.geth.State) (ctx : Ctx) (hash : Hash) : Outcome E.geth.State Nat :=
  E.removePoolTransactions n ctx (some hash) none

/-- `DropAllTransactions` -/
def dropAllTransactions (n : Node E.geth.State) (ctx : Ctx) : Outcome E.geth.State Nat :=
  E.removePoolTransactions n ctx none none

/-- `RemovePoolTransactions` -/
def removeAccountTransactions (n : Node E.geth.State) (ctx : Ctx) (address : Address) :
    Outcome E.geth.State Nat :=
  E.removePoolTransactions n ctx none (some address)

/-! ## Other inputs of the next block -/

/-- `SetFeeRecipient` -/
def setFeeRecipient (n : Node E.geth.State) (ctx : Ctx) (address : Address) : Outcome E.geth.State Unit :=
  n.executeWrite ctx fun n ctx => .settle n do
    let (n, ctx) ← E.rebuildPendingView { n with feeRecipient := address } ctx
    .ok (.done n () ctx)

def maxWithdrawalsPerBlock : Nat := 16

/-- `AddWithdrawal` -/
def addWithdrawal (n : Node E.geth.State) (ctx : Ctx) (request : WithdrawalRequest) :
    Outcome E.geth.State Unit :=
  .settle n do
    failIf (request.amount = 0) (.new "withdrawal amount must be greater than zero")
    .ok <| n.executeWrite ctx fun n ctx => .settle n do
      failIf (maxWithdrawalsPerBlock ≤ n.pendingWithdrawals.length)
        (.new "next block already has 16 withdrawals")
      let (n, ctx) ← E.rebuildPendingView
        { n with pendingWithdrawals := n.pendingWithdrawals ++ [request] } ctx
      .ok (.done n () ctx)

/-- Note what an accepted request was issued as. -/
def recordIssued (n : Node E.geth.State) (requestType : UInt8) (data : Bytes) : History :=
  { n.history with
    issued := n.history.issued ++
      ((RequestType.ofByte requestType).toList.map fun t => (t, ⟨n.pendingExecutionRequests.nextID, data⟩)) }

/-- `addExecutionRequest` -/
def addExecutionRequest (n : Node E.geth.State) (ctx : Ctx) (requestType : UInt8) (data : Bytes) :
    Outcome E.geth.State Unit :=
  n.executeWrite ctx fun n ctx => .settle n do
    let proposed ← n.pendingExecutionRequests.enqueue requestType data
    let (candidate, ctx) ← E.pendingCandidate n ctx proposed
    let put ← executionRequestQueuePut proposed
    let history := E.recordIssued n requestType data
    let n ← n.commitAuxiliary [put] [] [] fun n =>
      { n with pendingExecutionRequests := proposed, history := history }.setPendingView candidate
    .ok (.done n () ctx)

/-- `AddDepositRequest` -/
def addDepositRequest (n : Node E.geth.State) (ctx : Ctx) (request : ExecutionDepositRequest) :
    Outcome E.geth.State Unit :=
  E.addExecutionRequest n ctx executionRequestDeposit (encodeExecutionDepositRequest request)

/-- `AddWithdrawalRequest` -/
def addWithdrawalRequest (n : Node E.geth.State) (ctx : Ctx) (request : ExecutionWithdrawalRequest) :
    Outcome E.geth.State Unit :=
  E.addExecutionRequest n ctx executionRequestWithdrawal (encodeExecutionWithdrawalRequest request)

/-- `AddConsolidationRequest` -/
def addConsolidationRequest (n : Node E.geth.State) (ctx : Ctx) (request : ExecutionConsolidationRequest) :
    Outcome E.geth.State Unit :=
  E.addExecutionRequest n ctx executionRequestConsolidation (encodeExecutionConsolidationRequest request)

/-! ## The mining mode -/

/-- The loop of `SetAutomine`: mine while the pending view has executable transactions. -/
def drainPool : Nat → Node E.geth.State → Ctx → Outcome E.geth.State Unit
  | fuel, n, ctx =>
    if n.pendingView.elim true (fun view => view.executable.isEmpty) then .done n () ctx
    else
      match fuel with
      | 0 => .fail n (.panic "the pool was not drained")
      | fuel + 1 => .settle n do
        let ctx ← ctx.check
        .ok ((E.mineExecutionBlock n ctx false).andThen fun n _ ctx => drainPool fuel n ctx)

/-- `SetAutomine`. Every round of the loop mines a pooled transaction, so the size of the
pool bounds their number. -/
def setAutomine (n : Node E.geth.State) (ctx : Ctx) (enabled : Bool) : Outcome E.geth.State Unit :=
  n.executeWrite ctx fun n ctx =>
    if !enabled then
      .done (if n.miningMode = .transaction then n.setMiningMode .manual else n) () ctx
    else
      (E.drainPool n.pool.count n ctx).andThen fun n _ ctx => .done (n.setMiningMode .transaction) () ctx

/-- `SetIntervalMining` -/
def setIntervalMining (n : Node E.geth.State) (ctx : Ctx) (interval : Int) : Outcome E.geth.State Unit :=
  .settle n do
    failIf (interval < 0 ∨ interval % second ≠ 0)
      (.new "mining interval must be whole non-negative seconds")
    .ok <| n.executeWrite ctx fun n ctx =>
      if interval = 0 then .done (n.setMiningMode .manual) () ctx
      else
        .done (({ n with miningInterval := interval, miningEmpty := true }).setMiningMode .interval) () ctx

/-- `Start` of the `miner` namespace -/
def minerStart (n : Node E.geth.State) (ctx : Ctx) : Outcome E.geth.State Unit :=
  n.executeWrite ctx fun n ctx => .done (n.setMiningMode n.resumeMiningMode) () ctx

/-- `Stop` of the `miner` namespace -/
def minerStop (n : Node E.geth.State) (ctx : Ctx) : Outcome E.geth.State Unit :=
  n.executeWrite ctx fun n ctx => .done (n.setMiningMode .manual) () ctx

/-- A tick of the interval miner. It runs in the controller itself, which looks neither at the
write error nor at the context first. The context is the node's own: a stop cancels it. -/
def intervalTick (n : Node E.geth.State) (ctx : Ctx) : Outcome E.geth.State Unit :=
  if n.miningMode ≠ .interval then .done n () ctx
  else if n.pool.count = 0 ∧ n.pendingWithdrawals = [] ∧ n.pendingExecutionRequests.empty ∧
      !n.miningEmpty then
    .done n () ctx
  else (E.mineExecutionBlock n ctx false).andThen fun n _ ctx => .done n () ctx

end Env

end Ethertest
