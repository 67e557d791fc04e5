-- SUMMARY: Mining: the block that extends the canonical chain, runs of blocks, and missed slots.
import Ethertest.Commands.Basic

/-!
# Mining

`mineExecutionBlock` builds a block on the head, commits it and rebuilds the pending
view. What it prepares before the commit is an `Extension`; a control block prepares one
too.
-/

namespace Ethertest

/-- A prepared extension of the canonical chain. -/
structure Extension where
  parent : Block
  prepared : PreparedBlock
  receipts : List Receipt
  slot : Nat
  projection : StoredProjection
  statePuts : List KV

namespace Extension

variable (E : Env) (l : Ledger) (x : Extension)

abbrev block : Block := x.prepared.block

abbrev hash : Hash := E.hash x.block

/-- The record of the new block, from its parent's and its own reasons. -/
def safety (reasons : List TaintReason) : BlockSafety :=
  blockSafetyForChild (l.safetyOf (E.hash x.parent)) (x.hash E) reasons

def timeline : StoredTimeline :=
  { l.timeline E with currentSlot := x.slot, lastProcessedSlot := x.slot }

/-- The taint that consumed controls bring. -/
def requestReasons : List TaintReason :=
  if x.prepared.controlled then [.executionRequestControl] else []

/-- The mined block's change of the session's record. -/
def mineSession : StoredSessionSafety :=
  if x.prepared.controlled then
    taintStoredSession l.sessionSafety (x.safety E l x.requestReasons) x.requestReasons
  else l.sessionSafety

end Extension

/-- Take the transactions of a canonical block out of the pool. -/
def TransactionPool.removeMined (E : Env) (p : TransactionPool) (block : Block) : TransactionPool :=
  block.transactions.foldl
    (fun p tx =>
      match E.geth.sender E.config block.number block.time tx with
      | .error _ => p
      | .ok sender =>
        let byNonce := (p.pending[sender]?.getD ∅).erase tx.nonce
        { p with
          arrival := p.arrival.erase tx.hash
          blobs := p.blobs.erase tx.hash
          pending := if byNonce.isEmpty then p.pending.erase sender else p.pending.insert sender byNonce })
    p

/-- `applyCanonicalBlock` -/
def applyCanonicalBlock (E : Env) {σ : Type} (block : Block) (targetSlot : Nat) (n : Node σ) : Node σ :=
  { n with
    pool := n.pool.removeMined E block
    slot := targetSlot
    lastProcessedSlot := targetSlot
    slotByHash := n.slotByHash.insert (E.hash block) targetSlot
    canonicalBlockBySlot := n.canonicalBlockBySlot.insert targetSlot (E.hash block) }

/-- Add reasons to the session's set. -/
def addTaintReasons (set : Store TaintReason Unit) (reasons : List TaintReason) : Store TaintReason Unit :=
  reasons.foldl (fun acc reason => acc.insert reason ()) set

/-- `blobPuts` -/
def Node.blobPuts {σ : Type} (n : Node σ) (block : Block) : List KV :=
  block.transactions.filterMap fun tx =>
    n.pool.blobs[tx.hash]?.map fun bundle => (.blob tx.hash, .bundle bundle)

namespace Env

variable (E : Env)

/-- Everything a mined block needs before it is committed. -/
def planMine (n : Node E.geth.State) (ctx : Ctx) (empty : Bool) : Except Error (Extension × Ctx) := do
  let parent ← n.head
  let projection ← E.ensureProjection n parent
  let (built, ctx) ← E.buildBlock n ctx empty projection.root
  let prepared ← prepareExecutionRequestBlock E.geth built.generated.block built.generated.requests
    n.pendingExecutionRequests
  let receipts ← E.deriveReceiptFields prepared.block built.generated.receipts
  let projection ← E.projectionPut n prepared.block prepared.requests
  let _ ← executionRequestRecordPut (E.hash prepared.block) prepared.record
  let committed ← E.commitCandidate built.generated.state prepared.block
  failIf (committed.root ≠ prepared.block.root)
    (.errorf "candidate state root %s does not match block %s"
      [.hash committed.root, .hash prepared.block.root])
  if prepared.controlled then
    let _ ← executionRequestQueuePut prepared.remaining
  .ok ({ parent := parent, prepared := prepared, receipts := receipts, slot := built.slot,
         projection := projection, statePuts := committed.puts }, ctx)

/-- The journal of a mined block. -/
def mineOperation (n : Node E.geth.State) (x : Extension) : PreparedOperation :=
  let (executionPuts, rollbackDeletes) := executionPutsForJournal n.db x.statePuts
  { kind := .head
    oldHead := E.hash x.parent
    newHead := x.hash E
    targetNumber := x.block.number
    discardTargetOnCancel := true
    executionPuts := executionPuts
    rollbackDeletes := rollbackDeletes
    puts :=
      [timelinePut (x.timeline E n.toLedger), blockSlotPut (x.hash E) x.slot,
        canonicalSlotPut x.slot (x.hash E),
        blockSafetyPut (x.hash E) (x.safety E n.toLedger x.requestReasons),
        (.projection (x.hash E), .projection x.projection),
        (.requestRecord (x.hash E), .record x.prepared.record)] ++
      n.blobPuts x.block ++
      (if x.prepared.controlled then
        [(.requestQueue, .queue x.prepared.remaining), sessionSafetyPut (x.mineSession E n.toLedger)]
      else []) }

def mineEvents (n : Node E.geth.State) (x : Extension) : List Event :=
  { type := .block, slot := x.slot, blockHash := x.hash E, blockNumber := x.block.number } ::
    n.finalizedEventBetween E (x.slot - 1) x.slot

/-- The change in memory that goes with a mined block; `before` is the node it was
prepared on. -/
def mineApply (before : Node E.geth.State) (x : Extension) (n : Node E.geth.State) : Node E.geth.State :=
  let n := applyCanonicalBlock E x.block x.slot n
  let session := x.mineSession E before.toLedger
  let n := { n with
    blockSafety := n.blockSafety.insert (x.hash E) (x.safety E before.toLedger x.requestReasons)
    beaconBlockByRoot := n.beaconBlockByRoot.insert x.projection.root (x.hash E)
    pendingExecutionRequests := x.prepared.remaining }
  if x.prepared.controlled then
    { n with
      sessionTainted := session.tainted
      firstUnsafeBlock := session.firstUnsafeBlock
      taintReasons := addTaintReasons n.taintReasons session.reasons }
  else n

def mineExecutionBlock (n : Node E.geth.State) (ctx : Ctx) (empty : Bool) :
    Outcome E.geth.State (Block × List Receipt) :=
  .settle n do
    let (x, ctx) ← E.planMine n ctx empty
    let committed ← E.commitPrepared n (E.mineOperation n x) (E.mineEvents n x)
      (.extend x.block x.receipts) (E.mineApply n x)
    .ok (E.rebuildAfterCommit { committed with pendingWithdrawals := [] } ctx
      "block committed but pending view rebuild failed: %w" (x.block, x.receipts))

def mineBlocks (empty : Bool) : Nat → Node E.geth.State → Ctx → Outcome E.geth.State (List Hash)
  | 0, n, ctx => .done n [] ctx
  | count + 1, n, ctx =>
    .settle n do
      let ctx ← ctx.check
      .ok ((E.mineExecutionBlock n ctx empty).andThen fun n mined ctx =>
        (mineBlocks empty count n ctx).andThen fun n hashes ctx =>
          .done n (E.hash mined.1 :: hashes) ctx)

def mine (n : Node E.geth.State) (ctx : Ctx) (count : Nat) (empty : Bool) :
    Outcome E.geth.State (List Hash) :=
  .settle n do
    E.checkControlOperations "block count" count
    E.checkFixedListResponse "mine" count 68
    .ok (n.executeWrite ctx fun n ctx => E.mineBlocks empty count n ctx)

/-- `mineCompatible`: mining for `evm_mine` and its relatives. -/
def mineCompatible (n : Node E.geth.State) (ctx : Ctx) (count : Nat) (timestamp interval : Option Nat) :
    Outcome E.geth.State (List Hash) :=
  .settle n do
    E.checkControlOperations "block count" count
    .ok <| n.executeWrite ctx fun n ctx => .settle n do
      failIf (∃ i ∈ interval, i ≠ E.slotDuration) (.new "interval must equal slot duration")
      let maxSlot := (maxUint64 - E.genesisTime) / E.slotDuration
      failIf (maxSlot < n.slot ∨ maxSlot - n.slot < count) (.new "mining range overflows timestamp")
      if count = 0 ∧ timestamp = none then .ok (.done n [] ctx)
      else do
        failIf (n.slot = maxUint64 ∨ maxSlot < n.slot + 1) (.new "next slot timestamp overflows")
        let next := E.genesisTime + (n.slot + 1) * E.slotDuration
        failIf (∃ t ∈ timestamp, t ≠ next) (.new "timestamp must equal the next slot timestamp")
        .ok (E.mineBlocks false count n ctx)

/-! ## Missed slots -/

/-- The first loop of `MissSlots`: the size of the response. -/
def missResponse (start : Nat) : Nat → Nat → Nat → Ctx → Except Error Ctx
  | 0, _, _, ctx => .ok ctx
  | left + 1, offset, size, ctx => do
    let ctx ← ctx.check
    let size := size + (if offset = 1 then 0 else 1) + (Nat.digits 10 (start + offset)).length
    failIf (E.cfg.limits.maxResponseBytes.toNat < size)
      (.resourceLimit "missed slot response bytes" size E.cfg.limits.maxResponseBytes.toNat)
    missResponse start left (offset + 1) size ctx

/-- The second loop of `MissSlots`: one check of the context per slot. -/
def missSlotChecks : Nat → Ctx → Except Error Ctx
  | 0, ctx => .ok ctx
  | left + 1, ctx => do
    let ctx ← ctx.check
    missSlotChecks left ctx

/-- The events of `MissSlots`: one for each slot, and a change of the finalized block. -/
def missEvents (n : Node E.geth.State) (count : Nat) : List Event :=
  (List.range count).map (fun i => ({ type := .missedSlot, slot := n.slot + (i + 1) } : Event)) ++
    n.finalizedEventBetween E n.slot (n.slot + count)

def missSlots (n : Node E.geth.State) (ctx : Ctx) (count : Nat) : Outcome E.geth.State (List Nat) :=
  .settle n do
    E.checkControlOperations "missed slot count" count
    E.checkFixedListResponse "missed slot" count 1
    .ok <| n.executeWrite ctx fun n ctx => .settle n do
      failIf (maxUint64 - n.slot < count) (.new "missed slot range overflows uint64")
      let ctx ← E.missResponse n.slot count 1 2 ctx
      let ctx ← missSlotChecks count ctx
      let slots := (List.range count).map fun i => n.slot + (i + 1)
      if count = 0 then .ok (.done n slots ctx)
      else do
        let target := n.slot + count
        let (pending, ctx) ← E.pendingCandidateAtSlot n ctx n.pendingExecutionRequests
          ((target + 1) % 2 ^ 64)
        let timeline := { n.timeline E with currentSlot := target, lastProcessedSlot := target }
        let n ← n.commitAuxiliary [timelinePut timeline] [] (E.missEvents n count) fun n =>
          ({ n with slot := target, lastProcessedSlot := target }).setPendingView pending
        .ok (.done n slots ctx)

end Env

end Ethertest
