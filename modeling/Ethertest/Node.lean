-- SUMMARY: The state of a node, and the two ways in which an operation commits to the database and to memory.
import Ethertest.Config
import Ethertest.Events
import Ethertest.Recovery
import Ethertest.Base.Ancestry

/-!
# The node

`Ledger` is the part of a node's state that its persisted metadata mirrors, with the
database itself. `Node` adds what is kept in memory only: the transaction pool, the
pending view, the mining mode and the error that disables writes. `History` records
what the node did; no function reads it.
-/

namespace Ethertest

/-- An execution genesis. -/
structure Genesis where
  config : ChainConfig
  block : Block
  /-- the database that `NewBlockChain` leaves on a fresh store -/
  entries : Entries
  /-- supplied from outside -/
  external : Bool := false

/-- What is fixed for the life of a node: its dependencies, its accepted configuration
and the genesis that the configuration's genesis time was taken from. -/
structure Env where
  geth : Geth
  cfg : Config
  genesis : Genesis
  accepted : cfg.validateResolved = .ok ()
  genesis_number : genesis.block.number = 0
  genesis_time : genesis.block.time = cfg.genesisTime

namespace Env

variable (E : Env)

abbrev hash (b : Block) : Hash := E.geth.blockHash b

abbrev config : ChainConfig := E.genesis.config

abbrev genesisTime : Nat := E.cfg.genesisTime

abbrev genesisHash : Hash := E.hash E.genesis.block

/-- The slot duration in seconds. -/
abbrev slotDuration : Nat := E.cfg.slotSeconds

theorem slotDuration_pos : 0 < E.slotDuration := Config.slotSeconds_pos E.accepted

end Env

/-- What a node did so far, oldest first: its prepared commits, the batches of events it
emitted, and the execution-request controls it issued. -/
structure History where
  commits : List Commit := []
  batches : List (List Event) := []
  issued : List (RequestType × QueuedExecutionRequest) := []

structure Ledger where
  db : Db
  slot : Nat
  lastProcessedSlot : Nat
  timelineComplete : Bool
  finalityPaused : Bool
  finalitySlot : Nat
  slotByHash : Store Hash Nat
  canonicalBlockBySlot : Store Nat Hash
  beaconBlockByRoot : Store Hash Hash
  blockSafety : Store Hash BlockSafety
  sessionTainted : Bool
  firstUnsafeBlock : Option Hash
  taintReasons : Store TaintReason Unit
  pendingExecutionRequests : ExecutionRequestQueue
  nextSnapshot : Nat
  snapshots : Store Nat ChainPoint
  checkpoints : Store Bytes ChainPoint
  branches : Store Bytes Branch
  events : EventLog
  history : History

structure PendingView (σ : Type) where
  block : Block
  state : σ
  receipts : List Receipt
  executable : Store Hash Unit
  queued : Store Hash Unit
  referenced : Option Hash

/-- A transaction announced to subscribers. -/
structure PendingHashEvent where
  sequence : Nat
  hash : Hash

structure PendingHashLog where
  capacity : Nat
  next : Nat := 1
  events : List PendingHashEvent := []

namespace PendingHashLog

/-- `record`; `log.next++` wraps. -/
def record (log : PendingHashLog) (hash : Hash) : PendingHashLog :=
  let events := log.events ++ [⟨log.next, hash⟩]
  { log with next := (log.next + 1) % 2 ^ 64, events := events.drop (events.length - log.capacity) }

/-- `since` -/
def since (log : PendingHashLog) (sequence : Nat) : Except Error (List PendingHashEvent) :=
  sinceLocked PendingHashEvent.sequence log.events sequence

end PendingHashLog

/-- The transaction pool: transactions by sender and nonce, arrival numbers and blob bundles. -/
structure TransactionPool where
  pending : Store Address (Store Nat Transaction) := ∅
  arrival : Store Hash Nat := ∅
  nextArrival : Nat := 0
  blobs : Store Hash BlobBundle := ∅

structure Node (σ : Type) extends Ledger where
  feeRecipient : Address
  pool : TransactionPool
  pendingView : Option (PendingView σ)
  pendingWithdrawals : List WithdrawalRequest
  pendingEvents : PendingHashLog
  miningMode : MiningMode
  resumeMiningMode : MiningMode
  miningInterval : Int
  miningEmpty : Bool
  writeErr : Option Error

/-- The state after a command, and what the command returned. -/
structure Outcome (σ α : Type) where
  node : Node σ
  result : Except Error (α × Ctx)

/-! ## Readings of the ledger -/

namespace Ledger

variable (E : Env) (l : Ledger)

/-- `slotOf` -/
def slotOf (b : Block) : Nat :=
  match l.slotByHash[E.hash b]? with
  | some slot => slot
  | none =>
    if b.time ≤ E.genesisTime ∨ E.slotDuration = 0 then 0
    else (b.time - E.genesisTime) / E.slotDuration

/-- `timeline` -/
def timeline : StoredTimeline where
  genesisTime := E.genesisTime
  genesisHash := E.genesisHash
  externalGenesis := E.genesis.external
  currentSlot := l.slot
  lastProcessedSlot := l.lastProcessedSlot
  complete := l.timelineComplete
  finalityPaused := l.finalityPaused
  finalitySlot := l.finalitySlot

/-- `sessionSafety` -/
def sessionSafety : StoredSessionSafety where
  tainted := l.sessionTainted
  firstUnsafeBlock := l.firstUnsafeBlock
  reasons := l.taintReasons.keys

/-- The safety record of a block; the zero record if there is none. -/
def safetyOf (hash : Hash) : BlockSafety := l.blockSafety[hash]?.getD {}

/-- The head block; the source reads it without a check. -/
def head : Except Error Block := orFail l.db.currentBlock (.panic "current block is missing")

end Ledger

namespace Node

variable {σ : Type}

/-- `setMiningMode` -/
def setMiningMode (n : Node σ) (mode : MiningMode) : Node σ :=
  { n with
    miningMode := mode
    resumeMiningMode := if mode = .manual then n.resumeMiningMode else mode }

/-- `disableWrites` -/
def disableWrites (n : Node σ) (err : Error) : Node σ :=
  setMiningMode { n with writeErr := n.writeErr.or (some err) } .manual

/-- The check that starts every write. -/
def checkWrites (n : Node σ) : Except Error Unit :=
  match n.writeErr with
  | none => .ok ()
  | some err => .error (.wrap "node writes are disabled after a persistence failure: %w" err)

end Node

/-! ## Commits -/

namespace Env

variable (E : Env) {σ : Type}

/-- Commit a prepared operation: the journal, the mutation, the final batch, and then the
change in memory. Storage errors are left out. -/
def commitPrepared (n : Node σ) (operation : PreparedOperation) (events : List Event)
    (mutation : Mutation) (apply : Node σ → Node σ) : Except Error (Node σ) := do
  n.checkWrites
  failIf n.db.journal.isSome (.new "a prepared operation is already pending")
  let plan ← n.events.plan events
  let operation := { operation with
    puts := operation.puts ++ plan.puts
    deletes := operation.deletes ++ plan.deletes }
  let commit : Commit := { before := n.db, operation := operation, mutation := mutation }
  let n := apply { n with db := commit.after E.geth }
  .ok { n with
    events := n.events.apply plan
    history := { n.history with
      commits := n.history.commits ++ [commit]
      batches := n.history.batches ++ [plan.events] } }

end Env

/-- Commit a change of the node's own metadata in one batch. -/
def Node.commitAuxiliary {σ : Type} (n : Node σ) (puts : List KV) (deletes : List Key) (events : List Event)
    (apply : Node σ → Node σ) : Except Error (Node σ) := do
  n.checkWrites
  let plan ← n.events.plan events
  let batch := Store.puts (puts ++ plan.puts) ++ Store.deletes (deletes ++ plan.deletes)
  let n := apply { n with db := n.db.write batch }
  .ok { n with
    events := n.events.apply plan
    history := { n.history with batches := n.history.batches ++ [plan.events] } }

/-! ## Entries of the node's metadata -/

def timelinePut (t : StoredTimeline) : KV := (.timeline, .timeline t)

def sessionSafetyPut (s : StoredSessionSafety) : KV := (.sessionSafety, .session s)

def blockSafetyPut (hash : Hash) (s : BlockSafety) : KV := (.blockSafety hash, .safety s)

def blockSlotPut (hash : Hash) (slot : Nat) : KV := (.blockSlot hash, .slot slot)

def canonicalSlotPut (slot : Nat) (hash : Hash) : KV := (.canonicalSlot slot, .hash hash)

def branchPut (b : Branch) : KV :=
  (.branch b.name, .branch { name := jsonText b.name, base := b.base, head := b.head, tainted := b.tainted })

def checkpointPut (name : Bytes) (p : ChainPoint) : KV :=
  (.checkpoint name, .point { hash := p.hash, number := p.number, slot := p.slot, tainted := p.tainted })

def executionRequestQueuePut (q : ExecutionRequestQueue) : Except Error KV := do
  validateExecutionRequestQueue q
  .ok (.requestQueue, .queue q)

def executionRequestRecordPut (hash : Hash) (record : ExecutionRequestRecord) : Except Error KV := do
  validateExecutionRequestRecord record
  .ok (.requestRecord hash, .record record)

end Ethertest
