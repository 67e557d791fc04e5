-- SUMMARY: The node's metadata at start: fresh initialisation, loading, validation, and a new node.
import Ethertest.Builder

/-!
# Metadata at start

A fresh store gets its first metadata from `initializeFreshRuntimeMetadata`. On an existing
one the metadata is read back by `loadRuntimeMetadata` and `loadExecutionRequestQueue`, and
`validateRuntimeMetadata` compares what was read with the execution chain.
-/

namespace Ethertest

/-! ## Loading -/

/-- Read one family of entries into an index. `select` picks the keys of the family and
`decode` reads a value. -/
def loadIndex {K V : Type} [Ord K] [Std.TransOrd K] (select : Key → Option K)
    (decode : K → Value → Except Error V) (db : Db) : Except Error (Store K V) :=
  db.entries.toList.foldlM
    (fun index entry =>
      match select entry.1 with
      | none => .ok index
      | some k => do
        let v ← decode k entry.2
        .ok (index.insert k v))
    ∅

/-- The entries under `ethertest/canonical-slot/` -/
def loadCanonicalSlots : Db → Except Error (Store Nat Hash) :=
  loadIndex (fun | .canonicalSlot slot => some slot | _ => none) fun _ value =>
    match value with
    | .hash hash => .ok hash
    | _ => .error (.new "invalid canonical slot metadata")

/-- The entries under `ethertest/block-slot/` -/
def loadBlockSlots : Db → Except Error (Store Hash Nat) :=
  loadIndex (fun | .blockSlot hash => some hash | _ => none) fun _ value =>
    match value with
    | .slot slot => .ok slot
    | _ => .error (.new "invalid block slot metadata")

/-- The entries under `ethertest/block-safety/` -/
def loadBlockSafety : Db → Except Error (Store Hash BlockSafety) :=
  loadIndex (fun | .blockSafety hash => some hash | _ => none) fun hash value =>
    match value with
    | .safety safety => .ok { safety with blockHash := hash }
    | _ => .error (.new "invalid block safety metadata")

def loadTimeline (db : Db) : Except Error StoredTimeline :=
  match db.get .timeline with
  | some (.timeline timeline) => .ok timeline
  | some _ => .error (.new "decode timeline metadata")
  | none => .error (.new "read timeline metadata")

def loadSessionSafety (db : Db) : Except Error StoredSessionSafety :=
  match db.get .sessionSafety with
  | some (.session safety) => .ok safety
  | some _ => .error (.new "decode session safety metadata")
  | none => .error (.new "read session safety metadata")

/-- `loadRuntimeMetadata`: the chain with its metadata read from its database. -/
def loadRuntimeMetadata (E : Env) (chain : Ledger) : Except Error Ledger := do
  let timeline ← loadTimeline chain.db
  failIf (timeline.genesisTime ≠ E.genesisTime)
    (.errorf "stored genesis time %d does not match configured genesis time %d"
      [.num timeline.genesisTime, .num E.genesisTime])
  failIf (timeline.externalGenesis ≠ E.genesis.external)
    (.errorf "stored external genesis marker %t does not match configured marker %t"
      [.flag timeline.externalGenesis, .flag E.genesis.external])
  failIf (timeline.genesisHash ≠ 0 ∧ timeline.genesisHash ≠ E.genesisHash)
    (.errorf "stored genesis hash %s does not match execution genesis hash %s"
      [.hash timeline.genesisHash, .hash E.genesisHash])
  let canonicalBlockBySlot ← loadCanonicalSlots chain.db
  let slotByHash ← loadBlockSlots chain.db
  let blockSafety ← loadBlockSafety chain.db
  let safety ← loadSessionSafety chain.db
  .ok { chain with
    slot := timeline.currentSlot
    lastProcessedSlot := timeline.lastProcessedSlot
    timelineComplete := timeline.complete
    finalityPaused := timeline.finalityPaused
    finalitySlot := timeline.finalitySlot
    canonicalBlockBySlot := canonicalBlockBySlot
    slotByHash := slotByHash
    blockSafety := blockSafety
    sessionTainted := safety.tainted
    firstUnsafeBlock := safety.firstUnsafeBlock
    taintReasons := safety.reasons.foldl (fun acc reason => acc.insert reason ()) ∅ }

def loadExecutionRequestQueue (db : Db) : Except Error ExecutionRequestQueue :=
  match db.get .requestQueue with
  | none => .ok newExecutionRequestQueue
  | some (.queue queue) =>
    match validateExecutionRequestQueue queue with
    | .ok _ => .ok queue
    | .error err => .error (.wrap "validate execution request queue: %w" err)
  | some _ => .error (.new "decode execution request queue")

/-! ## Validation -/

namespace Ledger

variable (E : Env) (l : Ledger)

/-- The checks of the timeline's own fields. -/
def validateTimeline : Except Error Unit := do
  failIf (l.lastProcessedSlot ≠ l.slot)
    (.errorf "timeline last processed slot %d does not match current slot %d"
      [.num l.lastProcessedSlot, .num l.slot])
  if l.finalityPaused then
    failIf (l.slot < l.finalitySlot)
      (.errorf "paused finality slot %d exceeds current slot %d" [.num l.finalitySlot, .num l.slot])
  else
    failIf (l.finalitySlot ≠ 0)
      (.errorf "active finality has stale frozen slot %d" [.num l.finalitySlot])

/-- The checks of one block with a slot. -/
def validateKnownBlock (hash : Hash) (slot : Nat) : Except Error Unit := do
  failIf (l.db.blockByHash hash = none)
    (.errorf "slot metadata references missing execution block %s" [.hash hash])
  let projection ← loadProjection E.geth l.db hash
  let projection ← orFail projection
    (.errorf "execution block %s has no Beacon projection" [.hash hash])
  failIf (projection.slot ≠ slot)
    (.errorf "execution block %s has inconsistent Beacon projection slot" [.hash hash])
  let safety ← orFail (l.blockSafety[hash]?.filter fun safety => safety.blockHash = hash)
    (.errorf "execution block %s has missing safety metadata" [.hash hash])
  failIf (safety.tainted ∧ safety.firstUnsafeBlock = none)
    (.errorf "tainted block %s has no first unsafe ancestor" [.hash hash])
  failIf (safety.tainted ∧ ∃ reason ∈ safety.reasons, l.taintReasons[reason]? = none)
    (.errorf "block %s taint reason is missing from session safety" [.hash hash])

/-- The check of one entry of the canonical slot index. -/
def validateIndexed (slot : Nat) (hash : Hash) : Except Error Unit :=
  failIf ((¬ ∃ block ∈ l.db.blockByHash hash, l.db.canonicalHash block.number = hash) ∨
      l.slotByHash[hash]?.getD 0 ≠ slot)
    (.errorf "canonical slot %d references an invalid block %s" [.num slot, .hash hash])

/-- The check of the canonical block of one number. -/
def validateCanonical (number : Nat) : Except Error Unit := do
  let block ← orFail (l.db.blockByNumber number)
    (.errorf "canonical execution block %d is missing" [.num number])
  failIf (¬ ∃ slot ∈ l.slotByHash[E.hash block]?, l.canonicalBlockBySlot[slot]?.getD 0 = E.hash block)
    (.errorf "canonical execution block %s is absent from the canonical slot index"
      [.hash (E.hash block)])

/-- The checks of the session's record. -/
def validateSession : Except Error Unit :=
  if l.sessionTainted then do
    let first ← orFail l.firstUnsafeBlock (.new "tainted session has no first unsafe block")
    failIf (¬ (l.safetyOf first).tainted) (.new "session first unsafe block is missing or clean")
  else
    l.blockSafety.toList.forM fun entry =>
      failIf entry.2.tainted (.errorf "clean session contains tainted block %s" [.hash entry.1])

/-- `validateRuntimeMetadata` -/
def validateRuntimeMetadata : Except Error Unit := do
  l.validateTimeline
  let head ← l.head
  failIf (¬ ∃ slot ∈ l.slotByHash[E.hash head]?, slot ≤ l.slot)
    (.errorf "canonical head %s has invalid slot metadata" [.hash (E.hash head)])
  l.slotByHash.toList.forM fun entry => l.validateKnownBlock E entry.1 entry.2
  l.canonicalBlockBySlot.toList.forM fun entry => l.validateIndexed entry.1 entry.2
  (List.range (head.number + 1)).forM fun number => l.validateCanonical E number
  l.validateSession

end Ledger

/-! ## A fresh node -/

namespace Env

variable (E : Env)

/-- The chain in memory over a fresh store, before its metadata is written. Only the
genesis is stored, and its slot is zero. -/
def freshLedger : Ledger where
  db := { entries := E.genesis.entries }
  slot := 0
  lastProcessedSlot := 0
  timelineComplete := true
  finalityPaused := false
  finalitySlot := 0
  slotByHash := (∅ : Store Hash Nat).insert E.genesisHash 0
  canonicalBlockBySlot := (∅ : Store Nat Hash).insert 0 E.genesisHash
  beaconBlockByRoot := ∅
  blockSafety := (∅ : Store Hash BlockSafety).insert E.genesisHash { blockHash := E.genesisHash }
  sessionTainted := false
  firstUnsafeBlock := none
  taintReasons := ∅
  pendingExecutionRequests := newExecutionRequestQueue
  nextSnapshot := 0
  snapshots := ∅
  checkpoints := ∅
  branches := ∅
  events := { capacity := E.cfg.eventCapacity }
  history := {}

/-- The batch of `initializeFreshRuntimeMetadata` -/
def freshMetadata (l : Ledger) : List KV :=
  [(.stateSchema, .version currentMetadataFormat), timelinePut (l.timeline E),
    sessionSafetyPut l.sessionSafety] ++
  l.canonicalBlockBySlot.toList.map (fun entry => canonicalSlotPut entry.1 entry.2) ++
  l.slotByHash.toList.map (fun entry => blockSlotPut entry.1 entry.2) ++
  l.blockSafety.toList.map fun entry => blockSafetyPut entry.1 entry.2

def initializeFreshRuntimeMetadata (l : Ledger) : Ledger :=
  { l with db := l.db.write (Store.puts (E.freshMetadata l)) }

/-- `executionRequestsFromConsensusBlock` -/
def executionRequestsFromConsensusBlock (b : ConsensusBlock) : Except Error (Option (List Bytes)) :=
  match b.fork with
  | .deneb => .ok none
  | _ => marshalExecutionRequests (some b.requests)

/-- A node over a ledger, with nothing pending. -/
def idleNode (l : Ledger) : Node E.geth.State where
  toLedger := l
  feeRecipient := E.cfg.mining.feeRecipient
  pool := {}
  pendingView := none
  pendingWithdrawals := []
  pendingEvents := { capacity := E.cfg.eventCapacity }
  miningMode := E.cfg.mining.mode
  resumeMiningMode := if E.cfg.mining.mode = .manual then .transaction else E.cfg.mining.mode
  miningInterval := E.cfg.mining.interval
  miningEmpty := E.cfg.mining.autoMineEmpty
  writeErr := none

/-- The genesis gets its projection, and `validateExecutionRequestMetadata` derives its
request record from it. The projected list of a genesis is empty, so nothing is
executed again. -/
def publishGenesis (n : Node E.geth.State) : Except Error (Node E.geth.State) := do
  let projection ← E.projectionRecord n E.genesis.block none
  let requests ← executionRequestsFromConsensusBlock projection.signed
  let record : ExecutionRequestRecord :=
    { format := executionRequestRecordFormat, nativeRequests := requests, requests := requests,
      controls := {} }
  let recordPut ← executionRequestRecordPut E.genesisHash record
  verifyExecutionRequestsHash E.geth E.genesis.block requests
  .ok { n with
    db := n.db.write (Store.puts [(.projection E.genesisHash, .projection projection), recordPut])
    beaconBlockByRoot := n.beaconBlockByRoot.insert projection.root E.genesisHash }

/-- `newNode` on a fresh store. -/
def newNode : Except Error (Node E.geth.State) := do
  let n := E.idleNode (E.initializeFreshRuntimeMetadata E.freshLedger)
  let n ← E.publishGenesis n
  n.toLedger.validateRuntimeMetadata E
  let (n, _) ← E.rebuildPendingView n Ctx.background
  .ok n

end Env

end Ethertest
