-- SUMMARY: A node on an existing store: recovery, loading, the audit of requests and projections, and the node.
import Ethertest.ControlMetadata
import Ethertest.Forks

/-!
# Opening a store

`newNode` on a store that holds data. A prepared operation is recovered, the metadata is
read back, and everything that was read is checked against the execution blocks before the
node is returned. Every check that fails closes the store again.

The source goes over its maps in no particular order; here it is the order of the keys.
-/

namespace Ethertest

/-! ## The stored genesis -/

/-- The error for data without a metadata format. -/
def missingFormat : Error :=
  .new ("existing ethertest data does not contain the current in-place metadata format; " ++
    "remove it and create a fresh chain")

def readPersistedGenesisMetadata (db : Db) : Except Error StoredTimeline := do
  match db.get .stateSchema with
  | none => .error missingFormat
  | some (.version version) =>
    failIf (version ≠ currentMetadataFormat)
      (.errorf "unsupported ethertest state metadata schema; recreate the database for schema v%d"
        [.num currentMetadataFormat])
  | some _ =>
    .error (.errorf "unsupported ethertest state metadata schema; recreate the database for schema v%d"
      [.num currentMetadataFormat])
  let timeline ← loadTimeline db
  failIf (2 ^ 63 - 1 < timeline.genesisTime) (.new "stored genesis time is out of range")
  failIf (timeline.externalGenesis ∧ timeline.genesisHash = 0)
    (.new "stored external genesis metadata is missing the genesis hash")
  .ok timeline

namespace Env

variable (E : Env)

/-- The checks of `newExecutionChain` on an existing store. The genesis file of a store
with an external genesis is not compared here. -/
def checkStoredGenesis (db : Db) : Except Error Unit := do
  let persisted ← readPersistedGenesisMetadata db
  let storedHash := db.canonicalHash 0
  failIf (storedHash = 0) (.new "persisted ethertest data is missing the execution genesis")
  failIf (persisted.genesisHash ≠ 0 ∧ persisted.genesisHash ≠ storedHash)
    (.errorf "stored genesis metadata hash %s does not match database hash %s"
      [.hash persisted.genesisHash, .hash storedHash])
  failIf (E.genesisTime ≠ persisted.genesisTime)
    (.errorf "configured genesis time %d does not match stored genesis time %d"
      [.num E.genesisTime, .num persisted.genesisTime])

/-- `initializeRuntimeMetadata` on an existing store. -/
def initializeRuntimeMetadata (chain : Ledger) : Except Error Ledger := do
  let db ← recoverPreparedOperation chain.db
  match db.get .stateSchema with
  | none => .error missingFormat
  | some (.version version) => do
    failIf (version ≠ currentMetadataFormat)
      (.errorf "unsupported ethertest state metadata schema; recreate the database for schema v%d"
        [.num currentMetadataFormat])
    loadRuntimeMetadata E { chain with db := db }
  | some _ =>
    .error (.errorf "unsupported ethertest state metadata schema; recreate the database for schema v%d"
      [.num currentMetadataFormat])

/-- `ensureProjection` of the genesis: only a missing projection is built and stored. -/
def ensureGenesisProjection (n : Node E.geth.State) : Except Error (Node E.geth.State) := do
  match ← loadProjection E.geth n.db E.genesisHash with
  | some _ => .ok n
  | none => do
    let record ← E.projectionRecord n E.genesis.block none
    .ok { n with db := n.db.write (Store.puts [(.projection E.genesisHash, .projection record)]) }

end Env

/-! ## The audit of execution requests -/

/-- The tables of `validateExecutionRequestMetadata`. -/
structure RequestAudit where
  storedIDs : Store Nat (RequestType × Bytes) := ∅
  pendingIDs : Store Nat Unit := ∅
  maxID : Nat := 0
  canonicalIDs : Store Nat Hash := ∅
  derivedRecords : List KV := []

namespace RequestAudit

/-- `remember`, and the largest ID so far. -/
def remember (s : RequestAudit) (typed : RequestType × QueuedExecutionRequest) : Except Error RequestAudit :=
  match s.storedIDs[typed.2.id]? with
  | some existing => do
    failIf (existing ≠ (typed.1, typed.2.data))
      (.errorf "execution request control ID %d has conflicting stored values" [.num typed.2.id])
    .ok { s with maxID := max s.maxID typed.2.id }
  | none =>
    .ok { s with
      storedIDs := s.storedIDs.insert typed.2.id (typed.1, typed.2.data)
      maxID := max s.maxID typed.2.id }

/-- A control in the queue. -/
def pend (s : RequestAudit) (typed : RequestType × QueuedExecutionRequest) : Except Error RequestAudit := do
  let s ← s.remember typed
  .ok { s with pendingIDs := s.pendingIDs.insert typed.2.id () }

/-- A control that a canonical block has consumed. -/
def spend (hash : Hash) (s : RequestAudit) (typed : RequestType × QueuedExecutionRequest) :
    Except Error RequestAudit := do
  failIf (s.pendingIDs[typed.2.id]?.isSome)
    (.errorf "canonical execution request control ID %d is still pending" [.num typed.2.id])
  match s.canonicalIDs[typed.2.id]? with
  | some previous =>
    .error (.errorf "canonical blocks %s and %s both consume execution request control ID %d"
      [.hash previous, .hash hash, .num typed.2.id])
  | none => .ok { s with canonicalIDs := s.canonicalIDs.insert typed.2.id hash }

end RequestAudit

namespace Env

variable (E : Env)

/-- geth's `Processor().Process`, as far as its requests go: a block is executed on the
state of its parent. -/
abbrev Process := E.geth.State → Block → Except Error (Option (List Bytes))

variable (process : E.Process)

def executeNativeExecutionRequests (l : Ledger) (block : Block) : Except Error (Option (List Bytes)) := do
  failIf (block.number = 0) (.new "genesis cannot contain execution requests")
  let parent ← orFail (l.db.blockByHash block.parentHash)
    (.errorf "execution parent %s is missing" [.hash block.parentHash])
  let state ← (E.geth.openState parent.root).mapError (.wrap "open parent state for block %s: %w")
  (process state block).mapError (.wrap "re-execute block %s to recover native execution requests: %w")

def deriveNativeExecutionRequests (l : Ledger) (block : Block) (projectionRequests : Option (List Bytes)) :
    Except Error (Option (List Bytes)) := do
  if projectionRequests.getD [] = [] then .ok projectionRequests
  else do
    let requests ← E.executeNativeExecutionRequests process l block
    failIf (requests ≠ projectionRequests)
      (.errorf "block %s Beacon execution requests cannot be recovered as native output; control IDs are unavailable"
        [.hash (E.hash block)])
    .ok requests

/-- The checks of a block's stored record. -/
def auditRecord (l : Ledger) (block : Block) (projectionRequests : Option (List Bytes))
    (record : ExecutionRequestRecord) : Except Error Unit := do
  failIf (record.requests ≠ projectionRequests)
    (.errorf "execution request record %s does not match Beacon projection" [.hash (E.hash block)])
  if record.requests.getD [] ≠ [] then do
    let nativeRequests ← E.executeNativeExecutionRequests process l block
    failIf (nativeRequests ≠ record.nativeRequests)
      (.errorf "execution request record %s does not match re-executed native output" [.hash (E.hash block)])
  verifyExecutionRequestsHash E.geth block record.requests

/-- One round of `validateExecutionRequestMetadata`. -/
def auditBlock (l : Ledger) (s : RequestAudit) (hash : Hash) : Except Error RequestAudit := do
  let block ← orFail (l.db.blockByHash hash)
    (.errorf "execution request metadata references missing block %s" [.hash hash])
  let projected ← loadProjection E.geth l.db hash
  let projected ← orFail projected (.errorf "execution block %s has no Beacon projection" [.hash hash])
  let projectionRequests ← (executionRequestsFromConsensusBlock projected.signed).mapError
    (.wrap "read execution requests from projection %s: %w")
  match ← loadExecutionRequestRecord l.db hash with
  | some record => do
    E.auditRecord process l block projectionRequests record
    let s ← record.controls.items.foldlM RequestAudit.remember s
    if l.db.canonicalHash block.number ≠ hash then .ok s
    else record.controls.items.foldlM (RequestAudit.spend hash) s
  | none => do
    let requests ← E.deriveNativeExecutionRequests process l block projectionRequests
    let put ← executionRequestRecordPut hash
      { format := executionRequestRecordFormat, nativeRequests := requests, requests := requests, controls := {} }
    verifyExecutionRequestsHash E.geth block requests
    .ok { s with derivedRecords := s.derivedRecords ++ [put] }

/-- `validateExecutionRequestMetadata`: the chain with the records that were derived. -/
def validateExecutionRequestMetadata (l : Ledger) : Except Error Ledger := do
  validateExecutionRequestControlSet l.pendingExecutionRequests.toExecutionRequestControlSet
  let s ← l.pendingExecutionRequests.items.foldlM RequestAudit.pend {}
  let s ← l.slotByHash.keys.foldlM (E.auditBlock process l) s
  failIf (l.pendingExecutionRequests.nextID = 0 ∨ l.pendingExecutionRequests.nextID ≤ s.maxID)
    (.errorf "execution request next ID %d does not exceed stored ID %d"
      [.num l.pendingExecutionRequests.nextID, .num s.maxID])
  .ok (if s.derivedRecords = [] then l else { l with db := l.db.write (Store.puts s.derivedRecords) })

/-! ## The index of Beacon roots -/

/-- `validateProjectionObject`: the Beacon block is built again and compared. The
signature, which the model does not have, is a function of the rest. -/
def validateProjectionObject (n : Node E.geth.State) (block : Block) (signed : ConsensusBlock) :
    Except Error Unit := do
  let requests ←
    if block.number = 0 then .ok none
    else do
      let record ← loadExecutionRequestRecord n.db (E.hash block)
      let record ← orFail record (.new "beacon projection has no execution request record")
      parseExecutionRequests record.requests
  let expected ← E.buildSigned n block requests signed.parentRoot
  failIf (expected ≠ signed) (.new
    (match signed.fork with
    | .deneb => "deneb projection does not match its execution block"
    | .gloas => "gloas block does not match its execution block"
    | _ => "electra/fulu projection does not match its execution block"))

/-- The index by root and the projections by execution block, as they are collected. -/
structure RootIndex where
  index : Store Hash Hash := ∅
  records : Store Hash StoredProjection := ∅

/-- One round of the first loop of `initializeBeaconRootIndex`. -/
def indexProjection (n : Node E.geth.State) (s : RootIndex) (hash : Hash) : Except Error RootIndex := do
  let projection ← loadProjection E.geth n.db hash
  let projection ← orFail projection (.errorf "execution block %s has no Beacon projection" [.hash hash])
  let block ← orFail (n.db.blockByHash hash) (.errorf "beacon projection %s has no execution block" [.hash hash])
  failIf (projection.slot ≠ n.slotOf E block)
    (.errorf "beacon projection %s has slot %d, want %d"
      [.hash hash, .num projection.slot, .num (n.slotOf E block)])
  failIf (projection.fork ≠ E.config.forkNameAt block.time)
    (.errorf "beacon projection %s uses fork %q, want %q" [.hash hash])
  failIf (projection.signed.executionHash ≠ hash)
    (.errorf "beacon projection %s execution payload is inconsistent" [.hash hash])
  (E.validateProjectionObject n block projection.signed).mapError (.wrap "validate Beacon projection %s: %w")
  failIf (∃ previous ∈ s.index[projection.root]?, previous ≠ hash)
    (.errorf "beacon root %s maps to both %s and %s"
      [.hash projection.root, .hash (s.index[projection.root]?.getD 0), .hash hash])
  .ok { index := s.index.insert projection.root hash, records := s.records.insert hash projection }

/-- One round of the second loop: a projection names the root of its execution parent's. -/
def checkParentRoot (n : Node E.geth.State) (records : Store Hash StoredProjection) (hash : Hash)
    (projection : StoredProjection) : Except Error Unit := do
  let block ← orFail (n.db.blockByHash hash) (.panic "invalid memory address or nil pointer dereference")
  if block.number = 0 then
    failIf (projection.parentRoot ≠ 0) (.new "genesis Beacon projection has a nonzero parent root")
  else
    failIf (¬ ∃ parent ∈ records[block.parentHash]?, projection.parentRoot = parent.root)
      (.errorf "beacon projection %s does not reference its execution parent's Beacon root" [.hash hash])

def initializeBeaconRootIndex (n : Node E.geth.State) : Except Error (Node E.geth.State) := do
  let s ← n.slotByHash.keys.foldlM (E.indexProjection n) {}
  s.records.toList.forM fun entry => E.checkParentRoot n s.records entry.1 entry.2
  .ok { n with beaconBlockByRoot := s.index }

/-! ## The node -/

/-- `newNode` on an existing store. Nothing reads the history that is handed on. -/
def openNode (db : Db) (history : History) : Except Error (Node E.geth.State) := do
  E.checkStoredGenesis db
  let l ← E.initializeRuntimeMetadata { E.freshLedger with db := db, history := history }
  let events ← EventLog.newEventLog E.cfg.eventCapacity l.db
  let (checkpoints, branches) ← loadControlMetadata l.db
  let queue ← loadExecutionRequestQueue l.db
  let n := E.idleNode { l with
    events := events, checkpoints := checkpoints, branches := branches, pendingExecutionRequests := queue }
  let n ← E.ensureGenesisProjection n
  (n.toLedger.validateRuntimeMetadata E).mapError (.wrap "validate persisted runtime metadata: %w")
  let audited ← (E.validateExecutionRequestMetadata process n.toLedger).mapError
    (.wrap "validate persisted execution request metadata: %w")
  let n ← E.initializeBeaconRootIndex { n with toLedger := audited }
  (n.toLedger.validateControlMetadata E checkpoints branches).mapError
    (.wrap "validate persisted control metadata: %w")
  let (n, _) ← E.rebuildPendingView n Ctx.background
  .ok n

end Env

end Ethertest
