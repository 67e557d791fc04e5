-- SUMMARY: Synthetic Beacon projections of execution blocks, and the blob bundles they commit to.
import Ethertest.Node

/-!
# Beacon projections

Every execution block has a synthetic Beacon block. It is built when the execution
block is, stored with it, and its root is the parent beacon root of the child. The
memo table of the source is left out: it repeats what the database holds.
-/

namespace Ethertest

/-! ## Blob bundles -/

def blobBundleFormat : Nat := 1

namespace BlobBundle

variable (G : Geth)

def validate (b : BlobBundle) : Except Error Unit := do
  failIf (b.format ≠ blobBundleFormat ∨ b.blobs = [] ∨ b.blobs.length ≠ b.commitments.length ∨
      b.blobProofs.length ≠ b.blobs.length ∨
      b.cellProofs.length ≠ b.blobs.length * G.cellProofsPerBlob)
    (.new "invalid blob bundle")
  (b.blobs.zip (b.commitments.zip b.blobProofs)).forM fun item =>
    G.verifyBlobProof item.1 item.2.1 item.2.2
  G.verifyCellProofs b.blobs b.commitments b.cellProofs

/-- The commitments of the sidecar made from a bundle; `none` when the bundle is invalid. -/
def sidecarCommitments (b : BlobBundle) : Option (List Bytes) :=
  match b.validate G with
  | .ok _ => some b.commitments
  | .error _ => none

end BlobBundle

def newBlobBundle (G : Geth) (sidecar : BlobTxSidecar) : Except Error BlobBundle := do
  failIf (sidecar.blobs = [] ∨ sidecar.blobs.length ≠ sidecar.commitments.length)
    (.new "malformed blob sidecar")
  let bundle ← match sidecar.version with
    | 0 => do
      failIf (sidecar.proofs.length ≠ sidecar.blobs.length) (.new "malformed version 0 sidecar")
      let cellProofs ← sidecar.blobs.mapM G.computeCellProofs
      .ok { format := blobBundleFormat, blobs := sidecar.blobs, commitments := sidecar.commitments,
            blobProofs := sidecar.proofs, cellProofs := cellProofs.flatten }
    | 1 => do
      failIf (sidecar.proofs.length ≠ sidecar.blobs.length * G.cellProofsPerBlob)
        (.new "malformed version 1 sidecar")
      let blobProofs ← (sidecar.blobs.zip sidecar.commitments).mapM fun item =>
        G.computeBlobProof item.1 item.2
      .ok { format := blobBundleFormat, blobs := sidecar.blobs, commitments := sidecar.commitments,
            blobProofs := blobProofs, cellProofs := sidecar.proofs }
    | version => .error (.errorf "unsupported sidecar version %d" [.num version])
  bundle.validate G
  .ok bundle

/-! ## Reading -/

/-- The stored projection of a block, checked against the object it holds. -/
def loadProjection (G : Geth) (db : Db) (hash : Hash) : Except Error (Option StoredProjection) :=
  match db.get (.projection hash) with
  | none => .ok none
  | some (.projection record) => do
    failIf (record.format ≠ projectionFormat)
      (.errorf "unsupported Beacon projection format %d" [.num record.format])
    let root ← G.messageRoot record.signed
    failIf (root ≠ record.root ∨ record.signed.slot ≠ record.slot ∨
        record.signed.parentRoot ≠ record.parentRoot)
      (.new "stored Beacon projection metadata does not match SSZ object")
    .ok (some record)
  | some _ => .error (.errorf "decode Beacon projection %s" [.hash hash])

/-- The stored request record of a block, checked. -/
def loadExecutionRequestRecord (db : Db) (hash : Hash) : Except Error (Option ExecutionRequestRecord) :=
  match db.get (.requestRecord hash) with
  | none => .ok none
  | some (.record record) => do
    failIf (record.format ≠ executionRequestRecordFormat)
      (.errorf "unsupported execution request record format %d" [.num record.format])
    validateExecutionRequestRecord record
    .ok (some record)
  | some _ => .error (.errorf "decode execution request record %s" [.hash hash])

namespace Env

variable (E : Env) {σ : Type}

/-- The commitments of a transaction's retained bundle, from the pool or the database. -/
def blobCommitments (n : Node σ) (hash : Hash) : Option (List Bytes) :=
  match n.pool.blobs[hash]? with
  | some bundle => bundle.sidecarCommitments E.geth
  | none =>
    match n.db.get (.blob hash) with
    | some (.bundle bundle) => bundle.sidecarCommitments E.geth
    | _ => none

/-- The commitments of all blob transactions of a block. -/
def bodyCommitments (n : Node σ) : List Transaction → Except Error (List Bytes)
  | [] => .ok []
  | tx :: rest => do
    let own ← match E.blobCommitments n tx.hash with
      | some commitments => .ok commitments
      | none => do
        failIf (tx.blobHashes ≠ [])
          (.errorf "blob transaction %s has no valid retained bundle" [.hash tx.hash])
        .ok []
    let others ← bodyCommitments n rest
    .ok (own ++ others)

/-- The requests of the parent that a Gloas block carries. -/
def gloasParentRequests (n : Node σ) (block : Block) : Except Error ExecutionRequests :=
  if block.number = 0 then .ok {}
  else do
    let parent ← orFail (n.db.parent block) (.new "gloas execution parent is missing")
    if E.geth.isAmsterdam E.config parent.number parent.time ∧ 0 < parent.number then do
      let record ← loadExecutionRequestRecord n.db (E.hash parent)
      let record ← orFail record (.new "gloas parent requests are missing")
      let requests ← parseExecutionRequests record.requests
      .ok (requests.getD {})
    else .ok {}

/-- Build the Beacon block of an execution block on a given parent root. -/
def buildSigned (n : Node σ) (block : Block) (requests : Option ExecutionRequests) (parentRoot : Hash) :
    Except Error ConsensusBlock := do
  let slot := n.slotOf E block
  let commitments ← E.bodyCommitments n block.transactions
  let base : ConsensusBlock :=
    { fork := forkName E.cfg.chain.forks E.cfg.chain.slotsPerEpoch slot, slot := slot,
      proposerIndex := slot % E.cfg.chain.validators, parentRoot := parentRoot,
      stateRoot := E.geth.syntheticStateRoot block.root slot, executionHash := E.hash block, commitments := commitments,
      requests := requests.getD {}, parentRequests := {} }
  match forkName E.cfg.chain.forks E.cfg.chain.slotsPerEpoch slot with
  | .gloas => do
    failIf (block.header.slotNumber ≠ some slot)
      (.new "amsterdam slotNumber disagrees with the Beacon timeline")
    let parentRequests ← E.gloasParentRequests n block
    .ok { base with parentRequests := parentRequests }
  | .deneb => .ok { base with requests := {} }
  | _ => .ok base

/-- The Beacon root of a stored parent; only the genesis may still have to be built. -/
def parentBeaconRoot (n : Node σ) (parent : Block) : Except Error Hash := do
  match ← loadProjection E.geth n.db (E.hash parent) with
  | some record => E.geth.messageRoot record.signed
  | none => do
    failIf (parent.number ≠ 0)
      (.errorf "beacon projection for published block %s is missing" [.hash (E.hash parent)])
    let signed ← E.buildSigned n parent none 0
    E.geth.messageRoot signed

/-- `signedBlockWithRequests` -/
def signedBlock (n : Node σ) (block : Block) (requests : Option ExecutionRequests) :
    Except Error ConsensusBlock := do
  match ← loadProjection E.geth n.db (E.hash block) with
  | some record => .ok record.signed
  | none =>
    failIf (block.number ≠ 0 ∧ (n.db.blockByHash (E.hash block)).isSome)
      (.errorf "beacon projection for published block %s is missing" [.hash (E.hash block)])
    if block.number = 0 then E.buildSigned n block requests 0
    else do
      let parent ← orFail (n.db.parent block)
        (.errorf "execution parent %s not found" [.hash block.parentHash])
      let root ← E.parentBeaconRoot n parent
      E.buildSigned n block requests root

def projectionRecord (n : Node σ) (block : Block) (requests : Option ExecutionRequests) :
    Except Error StoredProjection := do
  let signed ← E.signedBlock n block requests
  let root ← E.geth.messageRoot signed
  .ok { format := projectionFormat,
        fork := forkName E.cfg.chain.forks E.cfg.chain.slotsPerEpoch (n.slotOf E block),
        slot := n.slotOf E block, root := root, parentRoot := signed.parentRoot, signed := signed }

/-- The projection of a block that is already published. The genesis projection is built
and stored at start, so here a missing one is an error for every block. -/
def ensureProjection (n : Node σ) (block : Block) : Except Error StoredProjection := do
  let record ← loadProjection E.geth n.db (E.hash block)
  orFail record (.errorf "beacon projection for published block %s is missing" [.hash (E.hash block)])

def projectionPut (n : Node σ) (block : Block) (requests : Option ExecutionRequests) :
    Except Error StoredProjection := do
  let record ← E.projectionRecord n block requests
  match n.beaconBlockByRoot[record.root]? with
  | some previous => do
    failIf (previous ≠ E.hash block)
      (.errorf "beacon root %s already belongs to execution block %s" [.hash record.root, .hash previous])
    .ok record
  | none => .ok record

end Env

end Ethertest
