-- SUMMARY: Control blocks: a block without transactions whose state is overridden by the caller.
import Ethertest.Commands.Mine

/-!
# Control blocks

A control block takes the next slot, carries no transactions, and applies the caller's
overrides on top of what executing the empty block did. Its extra data commits to the
overrides, and its record stores them.
-/

namespace Ethertest

def controlExtraPrefix : Bytes := text "ethertest-control-v1:"

namespace Env

variable (E : Env)

/-! ## Overrides -/

/-- Apply the overrides of one account. -/
def applyChange (address : Address) (change : AccountChanges) (state : E.geth.State) :
    Except Error E.geth.State := do
  let state ← match change.balance with
    | none => .ok state
    | some balance => do
      failIf (balance < 0) (.new "control balance cannot be negative")
      failIf (2 ^ 256 ≤ balance) (.new "control balance exceeds uint256")
      .ok (E.geth.setBalance address balance.toNat state)
  let state := change.nonce.elim state fun nonce => E.geth.setNonce address nonce state
  let state := change.code.elim state fun code => E.geth.setCode address (code.getD []) state
  let state := change.storage.elim state fun storage => E.geth.setStorage address storage state
  let state := change.storageDiff.elim state fun diff =>
    diff.toList.foldl (fun state item => E.geth.setState address item.1 item.2 state) state
  .ok state

def applyAccountChanges (changes : ControlChanges) (state : E.geth.State) : Except Error E.geth.State :=
  changes.toList.foldlM (fun state item => E.applyChange item.1 item.2 state) state

/-- The keys of a storage trie, each set to zero; one check of the context per key. -/
def clearStorage (address : Address) :
    List (Option Hash) → Ctx → Store Hash Hash → Except Error (Store Hash Hash × Ctx)
  | [], ctx, diff => .ok (diff, ctx)
  | key :: rest, ctx, diff => do
    let ctx ← ctx.check
    let key ← orFail key
      (.errorf "storage preimage unavailable for control account %s" [.hash address])
    clearStorage address rest ctx (diff.insert key 0)

/-- `maps.Copy` -/
def copyInto (diff storage : Store Hash Hash) : Store Hash Hash :=
  storage.toList.foldl (fun acc item => acc.insert item.1 item.2) diff

/-- Spell a full storage replacement out slot by slot. -/
def expandChange (parentState : E.geth.State) (parent : Block) (native : Option AccessList)
    (address : Address) (change : AccountChanges) (ctx : Ctx) : Except Error (AccountChanges × Ctx) :=
  match change.storage with
  | none => .ok (change, ctx)
  | some storage => do
    let keys ← E.geth.storageKeys parentState parent.root address
    let (cleared, ctx) ← clearStorage address keys ctx ∅
    let written := ((native.getD []).filter fun account => account.address = address).flatMap
      fun account => account.storageChanges.map (·.1)
    let cleared := written.foldl (fun acc key => acc.insert key 0) cleared
    let diff := copyInto cleared storage
    let diff := change.storageDiff.elim diff (copyInto diff)
    .ok ({ change with storage := none, storageDiff := some diff }, ctx)

def expandStorageReplacements (ctx : Ctx) (parent : Block) (native : Option AccessList)
    (changes : ControlChanges) : Except Error (ControlChanges × Ctx) := do
  let parentState ← E.geth.openState parent.root
  let cloned := cloneControlChanges changes
  cloned.toList.foldlM
    (fun acc item => do
      let (change, ctx) ← E.expandChange parentState parent native item.1 item.2 acc.2
      .ok (acc.1.insert item.1 change, ctx))
    (cloned, ctx)

/-! ## Access lists -/

/-- The accesses of one account, added to a list under construction. -/
def addAccount (account : AccountAccess) (list : E.geth.Construction) : E.geth.Construction :=
  let address := account.address
  let list := E.geth.accountRead address list
  let list := account.storageReads.foldl (fun l key => E.geth.storageRead address key l) list
  let list := account.storageChanges.foldl
    (fun l slot => slot.2.foldl (fun l v => E.geth.storageWrite v.1 address slot.1 v.2 l) l) list
  let list := account.balanceChanges.foldl (fun l v => E.geth.balanceChange v.1 address v.2 l) list
  let list := account.nonceChanges.foldl (fun l v => E.geth.nonceChange address v.1 v.2 l) list
  account.codeChanges.foldl (fun l v => E.geth.codeChange address v.1 v.2 l) list

def constructionAccessList (list : Option AccessList) : E.geth.Construction :=
  (list.getD []).foldl (fun l account => E.addAccount account l) E.geth.newConstruction

/-! ## The control block -/

/-- Override the state of a generated block and seal it with the new root, the digest of
the changes and, from Amsterdam on, the merged access list. -/
def overrideBlock (ctx : Ctx) (parent : Block) (generated : Generated E.geth.State)
    (changes : ControlChanges) : Except Error (Block × E.geth.State × Ctx) := do
  let number := generated.block.number
  let time := generated.block.time
  let amsterdam := E.geth.isAmsterdam E.config number time
  let (executionChanges, ctx) ←
    if amsterdam then E.expandStorageReplacements ctx parent generated.block.accessList changes
    else .ok (changes, ctx)
  let state := if amsterdam then E.geth.prepareControl E.config number time generated.state
    else generated.state
  let state ← E.applyAccountChanges executionChanges state
  let (state, accessList) ←
    if amsterdam then do
      let (state, accesses) := E.geth.finaliseControl E.config number time state
      let merged := E.geth.merge (E.constructionAccessList generated.block.accessList) accesses
      let list := E.geth.toEncodingObj merged
      E.geth.validateAccessList list generated.block.header.gasLimit 0
      .ok (state, some list)
    else .ok (state, none)
  let header := { generated.block.header with
    root := E.geth.intermediateRoot E.config number time state
    extra := controlExtraPrefix ++ E.geth.controlDigest changes
    blockAccessListHash :=
      (accessList.map E.geth.accessListHash).or generated.block.header.blockAccessListHash }
  let block := generated.block.withSeal header
  .ok ({ block with accessList := accessList.or block.accessList }, state, ctx)

/-- Everything a control block needs before it is committed. -/
def planControl (n : Node E.geth.State) (ctx : Ctx) (changes : ControlChanges) :
    Except Error (Extension × Ctx) := do
  let parent ← n.head
  let projection ← E.ensureProjection n parent
  failIf (n.slot = maxUint64) (.new "control block slot overflows uint64")
  let targetSlot := n.slot + 1
  failIf ((maxUint64 - E.genesisTime) / E.slotDuration < targetSlot)
    (.new "control block timestamp overflows uint64")
  let targetTime := E.genesisTime + targetSlot * E.slotDuration
  let withdrawals ← assignedWithdrawals n.db parent n.pendingWithdrawals
  let initialState ← E.newCandidateState parent.root
  let (generated, ctx) ← E.generateBlock ctx parent targetTime projection.root [] withdrawals false []
    initialState n.feeRecipient
  let (block, state, ctx) ← E.overrideBlock ctx parent generated changes
  let prepared ← prepareExecutionRequestBlock E.geth block generated.requests n.pendingExecutionRequests
  let receipts ← E.deriveReceiptFields prepared.block generated.receipts
  let projection ← E.projectionPut n prepared.block prepared.requests
  let _ ← executionRequestRecordPut (E.hash prepared.block) prepared.record
  let committed ← E.commitCandidate state prepared.block
  failIf (committed.root ≠ prepared.block.root)
    (.errorf "control state root %s does not match block %s"
      [.hash committed.root, .hash prepared.block.root])
  if prepared.controlled then
    let _ ← executionRequestQueuePut prepared.remaining
  .ok ({ parent := parent, prepared := prepared, receipts := receipts, slot := targetSlot,
         projection := projection, statePuts := committed.puts }, ctx)

/-- The reasons of a control block. -/
def controlReasons (x : Extension) : List TaintReason :=
  .controlStateOverride :: x.requestReasons

/-- The session's record after a control block. -/
def controlSession (l : Ledger) (x : Extension) : StoredSessionSafety :=
  taintStoredSession l.sessionSafety (x.safety E l (controlReasons x)) (controlReasons x)

/-- The journal of a control block. -/
def controlOperation (n : Node E.geth.State) (x : Extension) (changes : ControlChanges) :
    PreparedOperation :=
  let (executionPuts, rollbackDeletes) := executionPutsForJournal n.db x.statePuts
  { kind := .head
    oldHead := E.hash x.parent
    newHead := x.hash E
    targetNumber := x.block.number
    discardTargetOnCancel := true
    executionPuts := executionPuts
    rollbackDeletes := rollbackDeletes
    puts :=
      [(.control (x.hash E), .control { metadata := changes, parent := E.hash x.parent }),
        timelinePut (x.timeline E n.toLedger), blockSlotPut (x.hash E) x.slot,
        canonicalSlotPut x.slot (x.hash E),
        blockSafetyPut (x.hash E) (x.safety E n.toLedger (controlReasons x)),
        sessionSafetyPut (E.controlSession n.toLedger x),
        (.projection (x.hash E), .projection x.projection),
        (.requestRecord (x.hash E), .record x.prepared.record)] ++
      (if x.prepared.controlled then [(.requestQueue, .queue x.prepared.remaining)] else []) }

def controlEvents (n : Node E.geth.State) (x : Extension) : List Event :=
  { type := .controlBlock, slot := x.slot, blockHash := x.hash E, blockNumber := x.block.number } ::
    n.finalizedEventBetween E (x.slot - 1) x.slot

/-- The change in memory that goes with a control block. The pool stays as it is. -/
def controlApply (before : Node E.geth.State) (x : Extension) (n : Node E.geth.State) :
    Node E.geth.State :=
  let session := E.controlSession before.toLedger x
  { n with
    slot := x.slot
    lastProcessedSlot := x.slot
    slotByHash := n.slotByHash.insert (x.hash E) x.slot
    canonicalBlockBySlot := n.canonicalBlockBySlot.insert x.slot (x.hash E)
    blockSafety := n.blockSafety.insert (x.hash E) (x.safety E before.toLedger (controlReasons x))
    sessionTainted := true
    firstUnsafeBlock := session.firstUnsafeBlock
    taintReasons := addTaintReasons n.taintReasons session.reasons
    beaconBlockByRoot := n.beaconBlockByRoot.insert x.projection.root (x.hash E)
    pendingExecutionRequests := x.prepared.remaining }

/-- `applyControl` -/
def controlBlock (n : Node E.geth.State) (ctx : Ctx) (changes : ControlChanges) :
    Outcome E.geth.State Hash :=
  .settle n do
    let (x, ctx) ← E.planControl n ctx changes
    let committed ← E.commitPrepared n (E.controlOperation n x changes) (E.controlEvents n x)
      (.extend x.block x.receipts) (E.controlApply n x)
    .ok (E.rebuildAfterCommit { committed with pendingWithdrawals := [] } ctx
      "control block committed but pending view rebuild failed: %w" (x.hash E))

/-- `ApplyControl` -/
def applyControl (n : Node E.geth.State) (ctx : Ctx) (changes : ControlChanges) :
    Outcome E.geth.State Hash :=
  .settle n do
    failIf changes.isEmpty (.new "control changes are empty")
    E.checkControlOperations "control account count" changes.size
    let changes := cloneControlChanges changes
    .ok (n.executeWrite ctx fun n ctx => E.controlBlock n ctx changes)

end Env

end Ethertest
