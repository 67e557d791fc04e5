-- SUMMARY: Building blocks: withdrawals, the choice of transactions, execution, request assembly and the pending view.
import Ethertest.Projection
import Ethertest.Requests.Assembly

/-!
# Building blocks

`generateBlock` runs a block on top of a parent. The mined block, the pending view, the
control block and the branch block all come from it; they differ in the transactions,
the time and the extra data they pass. `prepareExecutionRequestBlock` then adds queued
execution-request controls to what the execution itself produced.
-/

namespace Ethertest

/-! ## Withdrawals -/

/-- The index after the last withdrawal on the block's line; the walk starts at the block. -/
def nextWithdrawalIndex (db : Db) : Nat → Block → Except Error Nat
  | fuel, b =>
    match (b.withdrawals.getD []).getLast? with
    | some last => do
      failIf (last.index = maxUint64) (.new "withdrawal index overflow")
      .ok (last.index + 1)
    | none =>
      match fuel with
      | 0 => .ok 0
      | k + 1 =>
        if b.number = 0 then .ok 0
        else
          match db.readBlock b.parentHash (b.number - 1) with
          | none => .ok 0
          | some p => nextWithdrawalIndex db k p

def assignedWithdrawals (db : Db) (parent : Block) (requests : List WithdrawalRequest) :
    Except Error (Option (List Withdrawal)) :=
  if requests = [] then .ok none
  else do
    let next ← nextWithdrawalIndex db parent.number parent
    failIf (maxUint64 - next < requests.length - 1) (.new "withdrawal index overflow")
    .ok <| some <| requests.mapIdx fun i r =>
      { index := next + i, validator := r.validatorIndex, address := r.address, amount := r.amount }

/-! ## The choice of transactions -/

namespace TransactionPool

/-- `pendingCount` -/
def count (p : TransactionPool) : Nat :=
  (p.pending.toList.map fun byNonce => byNonce.2.size).sum

/-- The pooled transaction of a sender and nonce. -/
def lookup (p : TransactionPool) (address : Address) (nonce : Nat) : Option Transaction :=
  p.pending[address]?.bind (·[nonce]?)

/-- All pooled transactions. -/
def transactions (p : TransactionPool) : List Transaction :=
  p.pending.toList.flatMap fun byNonce => byNonce.2.toList.map (·.2)

end TransactionPool

namespace Env

variable (E : Env) {σ : Type}

def transactionBefore (n : Node σ) (baseFee : Option Nat) (left right : Transaction) : Bool :=
  match E.cfg.mining.order with
  | .fifo => n.pool.arrival[left.hash]?.getD 0 < n.pool.arrival[right.hash]?.getD 0
  | .fees =>
    let leftTip := E.geth.effectiveGasTip left baseFee
    let rightTip := E.geth.effectiveGasTip right baseFee
    if leftTip = rightTip then left.hash < right.hash else rightTip < leftTip

/-- The first of the senders' next transactions, with its sender. -/
def selectTransaction (n : Node σ) (baseFee : Option Nat) (nextNonce : Store Address Nat) :
    Option (Address × Transaction) :=
  nextNonce.toList.foldl
    (fun selected item =>
      match n.pool.lookup item.1 item.2, selected with
      | none, _ => selected
      | some tx, none => some (item.1, tx)
      | some tx, some best =>
        if E.transactionBefore n baseFee tx best.2 then some (item.1, tx) else selected)
    none

/-- The selection loop; every round takes one transaction out of the pool. -/
def selectLoop (n : Node σ) (baseFee : Option Nat) : Nat → Store Address Nat → List Transaction
  | 0, _ => []
  | fuel + 1, nextNonce =>
    match E.selectTransaction n baseFee nextNonce with
    | none => []
    | some (address, tx) =>
      tx :: selectLoop n baseFee fuel
        (nextNonce.insert address ((nextNonce[address]?.getD 0 + 1) % 2 ^ 64))

def executableTransactions (n : Node σ) (head : Block) : Except Error (List Transaction) := do
  let state ← E.geth.openState head.root
  let nextNonce := n.pool.pending.toList.foldl
    (fun acc item => acc.insert item.1 (E.geth.getNonce state item.1)) (∅ : Store Address Nat)
  .ok (E.selectLoop n head.header.baseFee n.pool.count nextNonce)

end Env

/-! ## Execution -/

/-- A generated block with its receipts, state and native requests. -/
structure Generated (σ : Type) where
  block : Block
  receipts : List Receipt
  state : σ
  requests : Option (List Bytes)

/-- The accumulators of the transaction loop. -/
structure Execution (G : Geth) where
  header : Header
  state : G.State
  gas : G.GasPool
  accepted : List Transaction := []
  receipts : List Receipt := []
  logs : List Log := []
  access : G.Construction
  blocked : List Address := []

namespace Env

variable (E : Env)

/-- Record an applied transaction. -/
def accept (x : Execution E.geth) (tx : Transaction) (receipt : Receipt) (access : E.geth.Construction)
    (state : E.geth.State) (gas : E.geth.GasPool) : Execution E.geth :=
  { x with
    header := { x.header with blobGasUsed := x.header.blobGasUsed.map (· + receipt.blobGasUsed) }
    state := state
    gas := gas
    accepted := x.accepted ++ [tx]
    receipts := x.receipts ++ [receipt]
    logs := x.logs ++ receipt.logs
    access := E.geth.merge x.access access }

/-- One round of the transaction loop. A failed transaction is rolled back and, with
`skipInvalid`, blocks the later ones of its sender. -/
def applyOne (skipInvalid : Bool) (x : Execution E.geth) (transaction : Transaction) :
    Except Error (Execution E.geth) :=
  let tx := transaction.withoutBlobTxSidecar
  match E.geth.sender E.config x.header.number x.header.time tx with
  | .error err => if skipInvalid then .ok x else .error err
  | .ok sender =>
    if sender ∈ x.blocked then .ok x
    else
      match E.geth.transactionToMessage E.config x.header tx with
      | .error err => if skipInvalid then .ok { x with blocked := sender :: x.blocked } else .error err
      | .ok message =>
        match E.geth.applyTransaction E.config x.header x.accepted.length tx message x.state x.gas with
        | .error err => if skipInvalid then .ok { x with blocked := sender :: x.blocked } else .error err
        | .ok (receipt, access, state, gas) => .ok (E.accept x tx receipt access state gas)

/-- The transaction loop. -/
def applyTransactions (skipInvalid : Bool) :
    List Transaction → Ctx → Execution E.geth → Except Error (Execution E.geth × Ctx)
  | [], ctx, x => .ok (x, ctx)
  | transaction :: rest, ctx, x => do
    let ctx ← ctx.check
    let x ← E.applyOne skipInvalid x transaction
    applyTransactions skipInvalid rest ctx x

def deriveReceiptFields (block : Block) (receipts : List Receipt) : Except Error (List Receipt) :=
  E.geth.deriveFields E.config block
    (if block.header.excessBlobGas.isSome then some (E.geth.calcBlobFee E.config block.header) else none)
    receipts

/-- The header of a child before it is prepared. -/
def childHeader (parent : Block) (targetTime : Nat) (parentBeaconRoot : Hash) (extra : Bytes)
    (coinbase : Address) : Header :=
  let number := parent.number + 1
  let london := E.geth.isLondon E.config number
  let cancun := E.geth.isCancun E.config number targetTime
  { parentHash := E.hash parent
    coinbase := coinbase
    number := number
    gasLimit :=
      if london ∧ ¬ E.geth.isLondon E.config parent.number then
        let parentGasLimit := parent.header.gasLimit * E.geth.elasticityMultiplier E.config
        E.geth.calcGasLimit parentGasLimit parentGasLimit
      else parent.header.gasLimit
    time := targetTime
    extra := extra
    slotNumber :=
      if E.geth.isAmsterdam E.config number targetTime then
        some ((targetTime - E.genesisTime) / E.slotDuration)
      else none
    baseFee := if london then some (E.geth.calcBaseFee E.config parent.header) else none
    excessBlobGas :=
      if cancun then some (E.geth.calcExcessBlobGas E.config parent.header targetTime) else none
    blobGasUsed := if cancun then some 0 else none
    parentBeaconRoot := if cancun then some parentBeaconRoot else none }

/-- The check of a generated block's access list, if it has one. -/
def checkAccessList (block : Block) : Except Error Unit :=
  match block.accessList with
  | some list => E.geth.validateAccessList list block.header.gasLimit block.transactions.length
  | none => .ok ()

/-- Requests, withdrawals and the assembly of a block whose transactions have been applied. -/
def sealExecution (x : Execution E.geth) (withdrawals : Option (List Withdrawal)) :
    Except Error (Generated E.geth.State) := do
  let header := { x.header with gasUsed := E.geth.gasUsed x.gas }
  let (requests, requestAccess, state) ←
    E.geth.postExecution E.config header x.logs (x.accepted.length + 1) x.state
  let header := { header with requestsHash := requests.map E.geth.calcRequestsHash }
  let withdrawals :=
    if E.geth.isShanghai E.config header.number header.time ∧ withdrawals = none then some []
    else withdrawals
  let (state, access) := E.geth.finalize E.config header x.accepted withdrawals (x.accepted.length + 1)
    (E.geth.merge x.access requestAccess) state
  match E.geth.stateError state with
  | some err => .error err
  | none => do
    let block := E.geth.assembleBlock E.config header state x.accepted withdrawals x.receipts access
    E.checkAccessList block
    let receipts ← E.deriveReceiptFields block x.receipts
    verifyExecutionRequestsHash E.geth block requests
    .ok { block := block, receipts := receipts, state := state, requests := requests }

/-- The accumulators before the first transaction. -/
def startExecution (parent header : Header) (initialState : E.geth.State) : Execution E.geth :=
  let (state, access) := E.geth.preExecution E.config parent header initialState
  { header := header, state := state, gas := E.geth.newGasPool header.gasLimit,
    access := E.geth.merge E.geth.newConstruction access }

def generateBlock (ctx : Ctx) (parent : Block) (targetTime : Nat) (parentBeaconRoot : Hash)
    (txs : List Transaction) (withdrawals : Option (List Withdrawal)) (skipInvalid : Bool)
    (extra : Bytes) (initialState : E.geth.State) (coinbase : Address) :
    Except Error (Generated E.geth.State × Ctx) := do
  let ctx ← ctx.check
  failIf (maxUint64 ≤ parent.number) (.new "next block number overflows uint64")
  let header ← E.geth.prepare E.config parent.header
    (E.childHeader parent targetTime parentBeaconRoot extra coinbase)
  let (x, ctx) ← E.applyTransactions skipInvalid txs ctx (E.startExecution parent.header header initialState)
  let generated ← E.sealExecution x withdrawals
  .ok (generated, ctx)

/-! ## The next block -/

/-- `newCandidateState`: open the state of a root on top of the database. -/
def newCandidateState (root : Hash) : Except Error E.geth.State :=
  match E.geth.openState root with
  | .ok state => .ok state
  | .error err => .error (.wrap "open candidate state %s: %w" err)

/-- A generated block and the slot it is for. -/
structure Built (σ : Type) where
  generated : Generated σ
  slot : Nat

def buildBlockAtSlot (n : Node E.geth.State) (ctx : Ctx) (empty : Bool) (parentBeaconRoot : Hash)
    (targetSlot : Nat) : Except Error (Built E.geth.State × Ctx) := do
  let parent ← n.head
  let withdrawals ← assignedWithdrawals n.db parent n.pendingWithdrawals
  let txs ← E.executableTransactions n parent
  let txs := if empty then [] else txs
  failIf (targetSlot = 0 ∨ targetSlot ≤ n.slot) (.new "target block slot must advance the current slot")
  failIf (E.slotDuration ≠ 0 ∧ (maxUint64 - E.genesisTime) / E.slotDuration < targetSlot)
    (.new "next block timestamp overflows uint64")
  let targetTime := E.genesisTime + targetSlot * E.slotDuration
  let initialState ← E.newCandidateState parent.root
  let (generated, ctx) ← E.generateBlock ctx parent targetTime parentBeaconRoot txs withdrawals true []
    initialState n.feeRecipient
  .ok ({ generated := generated, slot := targetSlot }, ctx)

def buildBlock (n : Node E.geth.State) (ctx : Ctx) (empty : Bool) (parentBeaconRoot : Hash) :
    Except Error (Built E.geth.State × Ctx) := do
  let targetSlot := (n.slot + 1) % 2 ^ 64
  failIf (targetSlot = 0) (.new "next block slot overflows uint64")
  E.buildBlockAtSlot n ctx empty parentBeaconRoot targetSlot

/-- A candidate that was committed to memory, with the entries it wrote. -/
structure Committed (σ : Type) where
  state : σ
  root : Hash
  puts : List KV

/-- `candidate.commit` and `candidate.puts` -/
def commitCandidate (state : E.geth.State) (block : Block) : Except Error (Committed E.geth.State) := do
  let (root, entries, stable) ← E.geth.commit E.config block.number block.time state
  .ok { state := stable, root := root, puts := entries.map fun item => (.state item.1, .node item.2) }

/-! ## The pending view -/

/-- A candidate for the pending view. -/
structure Candidate (σ : Type) where
  block : Block
  state : σ
  receipts : List Receipt
  referenced : Option Hash

def pendingCandidateAtSlot (n : Node E.geth.State) (ctx : Ctx) (queue : ExecutionRequestQueue)
    (targetSlot : Nat) : Except Error (Candidate E.geth.State × Ctx) := do
  let parent ← n.head
  let projection ← E.ensureProjection n parent
  let (built, ctx) ← E.buildBlockAtSlot n ctx false projection.root targetSlot
  let prepared ← prepareExecutionRequestBlock E.geth built.generated.block built.generated.requests queue
  let receipts ← E.deriveReceiptFields prepared.block built.generated.receipts
  let committed ← E.commitCandidate built.generated.state prepared.block
  failIf (committed.root ≠ prepared.block.root)
    (.errorf "pending state root %s does not match block %s"
      [.hash committed.root, .hash prepared.block.root])
  .ok ({ block := prepared.block, state := committed.state, receipts := receipts,
         referenced := if committed.root = parent.root then none else some committed.root }, ctx)

def pendingCandidate (n : Node E.geth.State) (ctx : Ctx) (queue : ExecutionRequestQueue) :
    Except Error (Candidate E.geth.State × Ctx) := do
  let targetSlot := (n.slot + 1) % 2 ^ 64
  failIf (targetSlot = 0) (.new "pending block slot overflows uint64")
  E.pendingCandidateAtSlot n ctx queue targetSlot

end Env

/-- The hashes of a list of transactions, as a set. -/
def hashSet (txs : List Transaction) : Store Hash Unit :=
  txs.foldl (fun acc tx => acc.insert tx.hash ()) ∅

namespace Node

variable {σ : Type}

/-- The view that publishes a candidate over a pool. -/
def viewOf (p : TransactionPool) (c : Env.Candidate σ) : PendingView σ where
  block := c.block
  state := c.state
  receipts := c.receipts
  executable := hashSet c.block.transactions
  queued := hashSet (p.transactions.filter fun tx => (hashSet c.block.transactions)[tx.hash]?.isNone)
  referenced := c.referenced

def setPendingView (n : Node σ) (c : Env.Candidate σ) : Node σ :=
  { n with pendingView := some (viewOf n.pool c) }

end Node

namespace Env

variable (E : Env)

def rebuildPendingView (n : Node E.geth.State) (ctx : Ctx) : Except Error (Node E.geth.State × Ctx) := do
  let (candidate, ctx) ← E.pendingCandidate n ctx n.pendingExecutionRequests
  .ok (n.setPendingView candidate, ctx)

end Env

end Ethertest
