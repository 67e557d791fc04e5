-- SUMMARY: The abstract chain: what a node is about, without its database, and the moves it can make.
import Ethertest.Execution
import Ethertest.Run

/-!
# The abstract chain

A `Chain` is what a node keeps, seen as functions: the blocks with what is recorded about
each, the head, the clock, the queue of controls, the session's taint and the events. A
node changes it by few moves. A block is added to the head or to a branch, the head moves
to another block, the clock advances, a control is issued, a point or a branch is named.
The invariants of a node are stated and proved for these moves.
-/

namespace Ethertest

namespace Env

variable (E : Env)

/-- The slot of a timestamp. -/
def slotAt (time : Nat) : Nat := (time - E.genesisTime) / E.slotDuration

theorem slotAt_add_mul (slot : Nat) : E.slotAt (E.genesisTime + slot * E.slotDuration) = slot := by
  rw [slotAt, Nat.add_sub_cancel_left, Nat.mul_div_cancel _ E.slotDuration_pos]

/-- The native requests of a block, as a function of its parent and of the block. A control
block was executed without extra data. -/
def nativeOf (parent block : Block) : Option (Option (List Bytes)) :=
  E.nativeRequests parent block.time (block.header.parentBeaconRoot.getD 0)
    (if controlExtraPrefix <+: block.header.extra then [] else block.header.extra)
    block.header.coinbase block.transactions

end Env

/-- The taint of a session. -/
@[ext]
structure Session where
  tainted : Bool
  first : Option Hash
  reasons : Set TaintReason

@[ext]
structure Chain where
  blocks : Hash → Option Block
  head : Hash
  slot : Nat
  processed : Nat
  slots : Hash → Option Nat
  index : Nat → Option Hash
  safety : Hash → Option BlockSafety
  session : Session
  records : Hash → Option ExecutionRequestRecord
  /-- the blocks with a control record -/
  controls : Set Hash
  projections : Hash → Option StoredProjection
  queue : ExecutionRequestQueue
  issued : List TypedControl
  /-- block hash, number and slot of the snapshots and checkpoints -/
  points : Set (Hash × Nat × Nat)
  branches : Bytes → Option Hash
  batches : List (List Event)

namespace Chain

variable (E : Env) (c : Chain)

def parent (b : Block) : Option Block := c.blocks b.parentHash

/-- The block is stored. -/
def Mem (b : Block) : Prop := c.blocks (E.hash b) = some b

/-- The block is the head. -/
def IsHead (b : Block) : Prop := c.Mem E b ∧ E.hash b = c.head

/-- A block and its ancestors. -/
def line (b : Block) : List Block := Ancestry.line c.parent Block.number b

def slotOf (b : Block) : Nat := (c.slots (E.hash b)).getD (E.slotAt b.time)

def safetyOf (h : Hash) : BlockSafety := (c.safety h).getD {}

def recordOf (h : Hash) : ExecutionRequestRecord :=
  (c.records h).getD
    { format := executionRequestRecordFormat, nativeRequests := none, requests := none, controls := {} }

/-- The controls of a type that the blocks of a line consumed, oldest first. -/
def consumed (b : Block) (t : RequestType) : List QueuedExecutionRequest :=
  ofType (pathControls c.recordOf ((c.line b).map E.hash)) t

/-- A stored record as it is loaded. -/
def load (h : Hash) : Except Error (Option ExecutionRequestRecord) :=
  match c.records h with
  | none => .ok none
  | some record => do
    failIf (record.format ≠ executionRequestRecordFormat)
      (.errorf "unsupported execution request record format %d" [.num record.format])
    validateExecutionRequestRecord record
    .ok (some record)

end Chain

/-- A block on its way into the chain, with what is recorded about it. -/
structure Entry where
  parent : Block
  block : Block
  slot : Nat
  record : ExecutionRequestRecord
  projection : StoredProjection
  /-- the block overrides state -/
  control : Bool

namespace Entry

variable (E : Env) (c : Chain) (e : Entry)

abbrev hash : Hash := E.hash e.block

/-- The block's own reasons for taint. -/
def reasons : List TaintReason :=
  (if e.control then [.controlStateOverride] else []) ++
    (if e.record.controls.count = 0 then [] else [.executionRequestControl])

def safety : BlockSafety :=
  blockSafetyForChild (c.safetyOf (E.hash e.parent)) (e.hash E) e.reasons

/-- How an entry follows from the chain it is added to, with the queue its controls were
taken from and what is left of it. -/
structure Sound (queue remaining : ExecutionRequestQueue) : Prop where
  parent_mem : c.Mem E e.parent
  parentHash : e.block.parentHash = E.hash e.parent
  number : e.block.number = e.parent.number + 1
  slotNumber : E.geth.isAmsterdam E.config e.block.number e.block.time →
    e.block.header.slotNumber = some (E.slotAt e.block.time)
  projection : e.projection.slot = c.slotOf E e.block
  control : e.control = true ↔ controlExtraPrefix <+: e.block.header.extra
  valid : validateExecutionRequestRecord e.record = .ok ()
  prepared : ∃ generated native p, Assembles E.geth generated native queue p ∧ p.block = e.block ∧
    p.record = e.record ∧ p.remaining = remaining ∧ E.nativeOf e.parent e.block = some native

end Entry

namespace Chain

variable (E : Env) (c : Chain)

/-- Record a block. -/
def put (e : Entry) : Chain :=
  { c with
    blocks := Function.update c.blocks (e.hash E) (some e.block)
    slots := Function.update c.slots (e.hash E) (some e.slot)
    safety := Function.update c.safety (e.hash E) (some (e.safety E c))
    records := Function.update c.records (e.hash E) (some e.record)
    controls := if e.control then insert (e.hash E) c.controls else c.controls
    projections := Function.update c.projections (e.hash E) (some e.projection) }

/-- The session after a block with reasons of its own. -/
def taint (s : Session) (safety : BlockSafety) (reasons : List TaintReason) : Session :=
  if reasons = [] then s
  else
    { tainted := true
      first := s.first.or safety.firstUnsafeBlock
      reasons := s.reasons ∪ { r | r ∈ reasons } }

/-- Record a block and make it the head. -/
def extend (e : Entry) (remaining : ExecutionRequestQueue) (batch : List Event) : Chain :=
  { c.put E e with
    head := e.hash E
    slot := e.slot
    processed := e.slot
    index := Function.update c.index e.slot (some (e.hash E))
    session := taint c.session (e.safety E c) e.reasons
    queue := remaining
    batches := c.batches ++ [batch] }

/-- The slot index after the head moved: entries beyond the target slot or of abandoned
blocks go, then the adopted blocks are entered, oldest first. -/
def movedIndex (targetSlot : Nat) (oldPath newPath : List Block) : Nat → Option Hash :=
  newPath.reverse.foldl (fun index b => Function.update index (c.slotOf E b) (some (E.hash b)))
    fun slot => (c.index slot).filter fun h => ¬ (targetSlot < slot ∨ h ∈ oldPath.map E.hash)

end Chain

/-- The event neither adds nor removes a block, and announces no change of the chain. -/
def Event.quiet (e : Event) : Prop :=
  e.type = .missedSlot ∨ e.type = .finalizedCheckpoint

/-- The announcement of a block. -/
def Event.block (slot : Nat) (hash : Hash) (number : Nat) (removed : Bool) : Event :=
  { type := .block, slot := slot, blockHash := hash, blockNumber := number, removed := removed }

namespace Chain

variable (E : Env) (c : Chain)

/-- The events of a move of the head, without their revisions. -/
def moveEvents (targetSlot : Nat) (oldHead target : Block) (oldPath newPath : List Block) : List Event :=
  oldPath.map (fun b => .block (c.slotOf E b) (E.hash b) b.number true) ++
  newPath.reverse.map (fun b => .block (c.slotOf E b) (E.hash b) b.number false) ++
  (if E.hash oldHead = E.hash target then []
  else [{ type := .chainReorg, slot := targetSlot, oldHead := E.hash oldHead,
          newHead := E.hash target, depth := oldPath.length }])

/-- The moves of a chain. -/
inductive Step : Chain → Chain → Prop
  /-- a block on the head, in the next slot -/
  | extend {c : Chain} {e : Entry} {remaining : ExecutionRequestQueue} {batch : List Event} {event : Event}
      {quiet : List Event} (sound : e.Sound E c c.queue remaining) (head : c.head = E.hash e.parent)
      (slot : e.slot = c.slot + 1) (time : e.block.time = E.genesisTime + e.slot * E.slotDuration)
      (extra : ¬ branchExtraPrefix <+: e.block.header.extra)
      (events : batch.map EventLog.unnumbered = event :: quiet)
      (event_type : event.type = .block ∨ event.type = .controlBlock)
      (event_block : event.blockHash = e.hash E ∧ event.blockNumber = e.block.number ∧ event.removed = false)
      (silent : ∀ q ∈ quiet, q.quiet) :
      Step c (c.extend E e remaining batch)
  /-- a block on a branch, one slot after its parent; it consumes no controls -/
  | branch {c : Chain} {e : Entry} {name : Bytes} {remaining : ExecutionRequestQueue}
      (sound : e.Sound E c newExecutionRequestQueue remaining) (head : c.branches name = some (E.hash e.parent))
      (time : e.block.time = e.parent.time + E.slotDuration) (slot : e.slot = E.slotAt e.block.time)
      (extra : e.block.header.extra = branchExtraPrefix ++ name) :
      Step c { c.put E e with
        branches := Function.update c.branches name (some (e.hash E)), batches := c.batches ++ [[]] }
  /-- another stored block becomes the head, at its own slot or at the slot of a point -/
  | move {c : Chain} {oldHead target : Block} {targetSlot : Nat} {oldPath newPath : List Block}
      {queue : ExecutionRequestQueue} {batch : List Event} (old : c.blocks c.head = some oldHead)
      (mem : c.Mem E target)
      (slot : targetSlot = c.slotOf E target ∨ (E.hash target, target.number, targetSlot) ∈ c.points)
      (paths : Ancestry.divergentPaths c.parent Block.number (fun a b => E.hash a = E.hash b) oldHead target =
        some (oldPath, newPath))
      (reconciled : reconcileExecutionRequestQueue c.load c.queue (oldPath.map E.hash) (newPath.map E.hash) =
        .ok queue)
      (events : batch.map EventLog.unnumbered = c.moveEvents E targetSlot oldHead target oldPath newPath) :
      Step c { c with
        head := E.hash target, slot := targetSlot, processed := targetSlot
        index := c.movedIndex E targetSlot oldPath newPath, queue := queue, batches := c.batches ++ [batch] }
  /-- slots pass -/
  | wait {c : Chain} (slot : Nat) (later : c.slot ≤ slot) : Step c { c with slot := slot, processed := slot }
  /-- a control is issued -/
  | issue {c : Chain} {t : RequestType} {data : Bytes} (size : data.length = t.size) :
      Step c { c with
        queue := c.queue.push t data, issued := c.issued ++ [(t, ⟨c.queue.nextID, data⟩)] }
  /-- the head is remembered as a point, or points are forgotten -/
  | point {c : Chain} {head : Block} {points : Set (Hash × Nat × Nat)} (old : c.blocks c.head = some head)
      (new : ∀ p ∈ points, p ∈ c.points ∨ p = (c.head, head.number, c.slot)) :
      Step c { c with points := points }
  /-- a branch is created on a stored block -/
  | fork {c : Chain} {name : Bytes} {base : Block} (fresh : c.branches name = none) (mem : c.Mem E base) :
      Step c { c with branches := Function.update c.branches name (some (E.hash base)) }
  /-- events that are not about blocks -/
  | announce {c : Chain} {batch : List Event} (silent : ∀ q ∈ batch, q.quiet) :
      Step c { c with batches := c.batches ++ [batch] }

end Chain

end Ethertest
