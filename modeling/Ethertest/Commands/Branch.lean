-- SUMMARY: Branches: creating one, mining on it, and switching the canonical chain.
import Ethertest.Commands.Mine

/-!
# Branches

A branch names a block off or on the canonical chain. Mining on it adds blocks without
touching the head. Switching makes a stored block the head; `Revert` and `Restore` switch
too.
-/

namespace Ethertest

def branchExtraPrefix : Bytes := text "ethertest-branch:"

namespace Env

variable (E : Env)

/-- `CreateBranch` -/
def createBranch (n : Node E.geth.State) (ctx : Ctx) (name : Bytes) (blockNumber : Nat) :
    Outcome E.geth.State Unit :=
  .settle n do
    failIf (name = []) (.new "branch name is required")
    failIf (32 < branchExtraPrefix.length + name.length) (.new "branch name is too long")
    .ok <| n.executeWrite ctx fun n ctx => .settle n do
      failIf n.branches[name]?.isSome (.errorf "branch %q already exists" [.bytes name])
      let base ← orFail (n.db.blockByNumber blockNumber) (.new "branch base not found")
      let finality := n.resolveSyntheticFinality E n.slot
      failIf (base.number < finality.finalized.number ∧ E.hash base ≠ n.db.headHash)
        (.new "branch base is finalized; use reset or restore")
      let item : Branch :=
        { name := name, base := E.hash base, head := E.hash base,
          tainted := (n.safetyOf (E.hash base)).tainted }
      let n ← n.commitAuxiliary [branchPut item] [] [] fun n =>
        { n with branches := n.branches.insert name item }
      .ok (.done n () ctx)

/-! ## Mining on a branch -/

/-- Everything a branch block needs before it is committed. -/
def planBranch (n : Node E.geth.State) (ctx : Ctx) (item : Branch) : Except Error (Extension × Ctx) := do
  let ctx ← ctx.check
  let parent ← orFail (n.db.blockByHash item.head) (.new "branch head not found")
  let projection ← E.ensureProjection n parent
  failIf (maxUint64 - E.slotDuration < parent.time) (.new "branch block timestamp overflows uint64")
  let targetTime := parent.time + E.slotDuration
  let initialState ← E.newCandidateState parent.root
  let (generated, ctx) ← E.generateBlock ctx parent targetTime projection.root [] none false
    (branchExtraPrefix ++ item.name) initialState n.feeRecipient
  let prepared ← prepareExecutionRequestBlock E.geth generated.block generated.requests
    newExecutionRequestQueue
  let block := prepared.block
  let receipts ← E.deriveReceiptFields block generated.receipts
  let committed ← E.commitCandidate generated.state block
  failIf (committed.root ≠ block.root)
    (.errorf "branch candidate state root %s does not match block %s"
      [.hash committed.root, .hash block.root])
  let slot := if E.genesisTime < block.time then (block.time - E.genesisTime) / E.slotDuration else 0
  let projection ← E.projectionPut n block prepared.requests
  let _ ← executionRequestRecordPut (E.hash block) prepared.record
  .ok ({ parent := parent, prepared := prepared, receipts := receipts, slot := slot,
         projection := projection, statePuts := committed.puts }, ctx)

/-- The branch after a block was mined on it. -/
def advanceBranch (l : Ledger) (item : Branch) (x : Extension) : Branch :=
  { item with head := x.hash E, tainted := (x.safety E l []).tainted }

/-- The journal of a branch block. -/
def branchOperation (n : Node E.geth.State) (item : Branch) (x : Extension) : PreparedOperation :=
  let (executionPuts, rollbackDeletes) := executionPutsForJournal n.db x.statePuts
  { kind := .block
    targetBlock := x.hash E
    targetNumber := x.block.number
    executionPuts := executionPuts
    rollbackDeletes := rollbackDeletes
    puts :=
      [blockSlotPut (x.hash E) x.slot, blockSafetyPut (x.hash E) (x.safety E n.toLedger []),
        (.projection (x.hash E), .projection x.projection),
        (.requestRecord (x.hash E), .record x.prepared.record),
        branchPut (E.advanceBranch n.toLedger item x)] }

/-- The change in memory that goes with a branch block. -/
def branchApply (before : Node E.geth.State) (item : Branch) (x : Extension) (n : Node E.geth.State) :
    Node E.geth.State :=
  { n with
    slotByHash := n.slotByHash.insert (x.hash E) x.slot
    blockSafety := n.blockSafety.insert (x.hash E) (x.safety E before.toLedger [])
    beaconBlockByRoot := n.beaconBlockByRoot.insert x.projection.root (x.hash E)
    branches := n.branches.insert item.name (E.advanceBranch before.toLedger item x) }

/-- One round of `MineBranch`. -/
def mineBranchBlock (n : Node E.geth.State) (ctx : Ctx) (name : Bytes) : Outcome E.geth.State Hash :=
  .settle n do
    let item ← orFail n.branches[name]? (.errorf "branch %q not found" [.bytes name])
    let (x, ctx) ← E.planBranch n ctx item
    let n ← E.commitPrepared n (E.branchOperation n item x) [] (.store x.block x.receipts)
      (E.branchApply n item x)
    .ok (.done n (x.hash E) ctx)

def mineBranchBlocks (name : Bytes) :
    Nat → Node E.geth.State → Ctx → Outcome E.geth.State (List Hash)
  | 0, n, ctx => .done n [] ctx
  | count + 1, n, ctx =>
    (E.mineBranchBlock n ctx name).andThen fun n hash ctx =>
      (mineBranchBlocks name count n ctx).andThen fun n hashes ctx => .done n (hash :: hashes) ctx

/-- `MineBranch` -/
def mineBranch (n : Node E.geth.State) (ctx : Ctx) (name : Bytes) (count : Nat) :
    Outcome E.geth.State (List Hash) :=
  .settle n do
    E.checkControlOperations "branch block count" count
    E.checkFixedListResponse "branch mine" count 68
    .ok <| n.executeWrite ctx fun n ctx => .settle n do
      let _ ← orFail n.branches[name]? (.errorf "branch %q not found" [.bytes name])
      .ok (E.mineBranchBlocks name count n ctx)

/-! ## Switching -/

/-- `divergentPaths` on the stored blocks; a missing ancestor is a panic. -/
def divergentPaths (db : Db) (oldHead newHead : Block) : Except Error (List Block × List Block) :=
  orFail (Ancestry.divergentPaths db.parent Block.number (fun a b => E.hash a = E.hash b) oldHead newHead)
    (.panic "missing ancestor")

/-- A prepared change of the canonical chain. -/
structure Switch where
  oldHead : Block
  target : Block
  targetSlot : Nat
  oldPath : List Block
  newPath : List Block
  queue : ExecutionRequestQueue

namespace Switch

variable (l : Ledger) (w : Switch)

def timeline : StoredTimeline :=
  let t := { l.timeline E with currentSlot := w.targetSlot, lastProcessedSlot := w.targetSlot }
  if t.finalityPaused ∧ w.targetSlot < t.finalitySlot then { t with finalitySlot := w.targetSlot } else t

/-- The slots whose entries are dropped from the index: those above the target slot and
those of abandoned blocks. -/
def dropped : List Nat :=
  (l.canonicalBlockBySlot.toList.filter fun item =>
    w.targetSlot < item.1 ∨ item.2 ∈ w.oldPath.map E.hash).map (·.1)

/-- The index in memory after the switch. -/
def canonicalSlots : Store Nat Hash :=
  w.newPath.reverse.foldl (fun acc b => acc.insert (l.slotOf E b) (E.hash b))
    ((w.dropped E l).foldl (fun acc slot => acc.erase slot) l.canonicalBlockBySlot)

def operation : PreparedOperation where
  kind := .head
  oldHead := E.hash w.oldHead
  newHead := E.hash w.target
  puts := [timelinePut (w.timeline E l), (.requestQueue, .queue w.queue)] ++
    w.newPath.reverse.map fun b => canonicalSlotPut (l.slotOf E b) (E.hash b)
  deletes := (w.dropped E l).map .canonicalSlot

/-- The announcement of one block. -/
def blockEvent (removed : Bool) (b : Block) : Event :=
  { type := .block, slot := l.slotOf E b, blockHash := E.hash b, blockNumber := b.number,
    removed := removed }

def events : List Event :=
  w.oldPath.map (blockEvent E l true) ++ w.newPath.reverse.map (blockEvent E l false) ++
    (if E.hash w.oldHead = E.hash w.target then []
    else [{ type := .chainReorg, slot := w.targetSlot, oldHead := E.hash w.oldHead,
            newHead := E.hash w.target, depth := w.oldPath.length }])

end Switch

/-- Everything a switch needs before it is committed. -/
def planSwitch (n : Node E.geth.State) (target : Block) (targetSlot : Nat) : Except Error Switch := do
  let oldHead ← n.head
  let (oldPath, newPath) ← E.divergentPaths n.db oldHead target
  let queue ← reconcileExecutionRequestQueue (loadExecutionRequestRecord n.db)
    n.pendingExecutionRequests (oldPath.map E.hash) (newPath.map E.hash)
  let _ ← executionRequestQueuePut queue
  .ok { oldHead := oldHead, target := target, targetSlot := targetSlot, oldPath := oldPath,
        newPath := newPath, queue := queue }

/-- The change in memory that goes with a switch. -/
def switchApply (before : Node E.geth.State) (w : Switch) (n : Node E.geth.State) : Node E.geth.State :=
  let timeline := w.timeline E before.toLedger
  { n with
    slot := w.targetSlot
    lastProcessedSlot := w.targetSlot
    finalityPaused := timeline.finalityPaused
    finalitySlot := timeline.finalitySlot
    canonicalBlockBySlot := w.canonicalSlots E before.toLedger
    pendingExecutionRequests := w.queue }

def switchCanonical (n : Node E.geth.State) (ctx : Ctx) (target : Block) (targetSlot : Nat) :
    Outcome E.geth.State Unit :=
  .settle n do
    let oldHead ← n.head
    if E.hash oldHead = E.hash target ∧ n.slot = targetSlot then .ok (.done n () ctx)
    else do
      let w ← E.planSwitch n target targetSlot
      let committed ← E.commitPrepared n (w.operation E n.toLedger) (w.events E n.toLedger)
        (.setHead target) (E.switchApply n w)
      .ok (E.rebuildAfterCommit committed ctx
        "canonical switch committed but pending view rebuild failed: %w" ())

/-- `SwitchBranch` -/
def switchBranch (n : Node E.geth.State) (ctx : Ctx) (name : Bytes) : Outcome E.geth.State Unit :=
  n.executeWrite ctx fun n ctx => .settle n do
    let item ← orFail n.branches[name]? (.errorf "branch %q not found" [.bytes name])
    let target ← orFail (n.db.blockByHash item.head) (.new "branch head not found")
    let oldHead ← n.head
    let (oldPath, _) ← E.divergentPaths n.db oldHead target
    let commonAncestor ← orFail (Ancestry.ascend n.db.parent oldPath.length oldHead)
      (.panic "missing ancestor")
    failIf (commonAncestor.number < (n.resolveSyntheticFinality E n.slot).finalized.number)
      (.new "branch switch would replace finalized history; use reset or restore")
    .ok (E.switchCanonical n ctx target (n.slotOf E target))

end Env

end Ethertest
