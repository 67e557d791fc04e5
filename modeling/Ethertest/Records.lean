-- SUMMARY: The records the node keeps about blocks, the timeline, branches, checkpoints, controls and events.
import Ethertest.Requests.Queue

/-!
# Records

The records that the node stores next to the execution chain. `encoding/json` is
lossless on them, since `omitempty` drops only zero values and reading a missing field
gives the zero value, so a stored record is the record itself. The two exceptions are
written out: a name that is not valid UTF-8, and a nil byte slice in a control.
-/

namespace Ethertest

/-! ## Safety -/

/-- The reasons for taint, in the order of their texts. -/
inductive TaintReason where
  | controlStateOverride
  | executionRequestControl
  | safetyMetadataUnavailable
  deriving DecidableEq

namespace TaintReason

def rank : TaintReason → Nat
  | controlStateOverride => 0
  | executionRequestControl => 1
  | safetyMetadataUnavailable => 2

theorem rank_injective : Function.Injective rank := by
  intro a b h
  cases a <;> cases b <;> first | rfl | cases h

instance : Ord TaintReason := ⟨compareOn rank⟩

instance : Std.TransOrd TaintReason := inferInstanceAs (Std.TransCmp (compareOn rank))

instance : Std.LawfulEqOrd TaintReason where
  eq_of_compare h := rank_injective (Std.LawfulEqOrd.eq_of_compare h)

instance : LE TaintReason := ⟨fun a b => a.rank ≤ b.rank⟩

instance : DecidableRel (α := TaintReason) (· ≤ ·) := fun a b => inferInstanceAs (Decidable (a.rank ≤ b.rank))

end TaintReason

/-- `slices.Sort` on reasons -/
def sortReasons (reasons : List TaintReason) : List TaintReason :=
  reasons.insertionSort (· ≤ ·)

/-- Whether a block belongs to Ethereum-replayable history or to an unsafe lineage. -/
structure BlockSafety where
  blockHash : Hash := 0
  tainted : Bool := false
  firstUnsafeBlock : Option Hash := none
  reasons : List TaintReason := []
  deriving DecidableEq

structure StoredSessionSafety where
  tainted : Bool := false
  firstUnsafeBlock : Option Hash := none
  reasons : List TaintReason := []
  deriving DecidableEq

/-- The reasons of a list that are not recorded yet, added one by one. -/
def addReasons (known added : List TaintReason) : List TaintReason :=
  added.foldl (fun acc reason => if reason ∈ acc then acc else acc ++ [reason]) known

/-- The record of a block from its parent's record and the block's own reasons. -/
def blockSafetyForChild (parent : BlockSafety) (hash : Hash) (unsafeReasons : List TaintReason) :
    BlockSafety :=
  if !parent.tainted && unsafeReasons.isEmpty then { blockHash := hash }
  else
    { blockHash := hash
      tainted := true
      firstUnsafeBlock := some (parent.firstUnsafeBlock.getD hash)
      reasons := sortReasons (addReasons parent.reasons unsafeReasons) }

/-- The session's record after a block with reasons of its own. -/
def taintStoredSession (session : StoredSessionSafety) (safety : BlockSafety)
    (unsafeReasons : List TaintReason) : StoredSessionSafety where
  tainted := true
  firstUnsafeBlock := session.firstUnsafeBlock.or safety.firstUnsafeBlock
  reasons := sortReasons (addReasons session.reasons unsafeReasons)

/-! ## Timeline, points and branches -/

structure StoredTimeline where
  genesisTime : Nat
  genesisHash : Hash
  externalGenesis : Bool
  currentSlot : Nat
  lastProcessedSlot : Nat
  complete : Bool
  finalityPaused : Bool
  finalitySlot : Nat
  deriving DecidableEq

/-- A point of the chain that a snapshot or a checkpoint returns to. -/
structure ChainPoint where
  hash : Hash
  number : Nat
  slot : Nat
  tainted : Bool
  used : Bool := false
  deriving DecidableEq

structure StoredChainPoint where
  hash : Hash
  number : Nat
  slot : Nat
  tainted : Bool
  deriving DecidableEq

structure Branch where
  name : Bytes
  base : Hash
  head : Hash
  tainted : Bool
  deriving DecidableEq

/-- The number of continuation bytes after a first byte, if they are there and form a
UTF-8 sequence with it (`utf8.DecodeRune`). -/
def utf8Continuation (first : UInt8) (rest : Bytes) : Option Nat :=
  let cont (b : UInt8) : Bool := 0x80 ≤ b && b ≤ 0xBF
  if first < 0x80 then some 0
  else match rest with
    | b₁ :: rest₁ =>
      if 0xC2 ≤ first ∧ first ≤ 0xDF then (if cont b₁ then some 1 else none)
      else
        -- the second byte of some first bytes has a narrower range
        let low : UInt8 := if first = 0xE0 then 0xA0 else if first = 0xF0 then 0x90 else 0x80
        let high : UInt8 := if first = 0xED then 0x9F else if first = 0xF4 then 0x8F else 0xBF
        if b₁ < low ∨ high < b₁ then none
        else match rest₁ with
          | b₂ :: rest₂ =>
            if !cont b₂ then none
            else if 0xE0 ≤ first ∧ first ≤ 0xEF then some 2
            else if 0xF0 ≤ first ∧ first ≤ 0xF4 then
              match rest₂ with
              | b₃ :: _ => if cont b₃ then some 3 else none
              | [] => none
            else none
          | [] => none
    | [] => none

/-- What a string is after it was written to JSON and read back: every byte that is not
part of a UTF-8 sequence becomes U+FFFD. -/
def jsonText (s : Bytes) : Bytes :=
  go s.length s
where
  go : Nat → Bytes → Bytes
    | _, [] => []
    | 0, _ => []
    | fuel + 1, b :: rest =>
      match utf8Continuation b rest with
      | some k => b :: rest.take k ++ go fuel (rest.drop k)
      | none => [0xEF, 0xBF, 0xBD] ++ go fuel rest

/-! ## Beacon projections -/

/-- The contents of a synthetic Beacon block that depend on the execution block. -/
structure ConsensusBlock where
  fork : ForkName
  slot : Nat
  proposerIndex : Nat
  parentRoot : Hash
  stateRoot : Hash
  executionHash : Hash
  commitments : List Bytes
  requests : ExecutionRequests
  parentRequests : ExecutionRequests
  deriving DecidableEq

def projectionFormat : Nat := 2

/-- A stored projection; `signed` is what its SSZ bytes decode to. -/
structure StoredProjection where
  format : Nat
  fork : ForkName
  slot : Nat
  root : Hash
  parentRoot : Hash
  signed : ConsensusBlock
  deriving DecidableEq

/-! ## Blob bundles -/

structure BlobBundle where
  format : Nat
  blobs : List Bytes
  commitments : List Bytes
  blobProofs : List Bytes
  cellProofs : List Bytes
  deriving DecidableEq

/-! ## Controls -/

/-- Overrides of one account. A missing pointer is `none`. The code is a slice behind a
pointer: `some none` is a pointer to a nil slice. -/
structure AccountChanges where
  balance : Option Int := none
  nonce : Option Nat := none
  code : Option (Option Bytes) := none
  storage : Option (Store Hash Hash) := none
  storageDiff : Option (Store Hash Hash) := none
  deriving DecidableEq

abbrev ControlChanges := Store Address AccountChanges

/-- `append([]byte(nil), code...)` is nil when there is nothing to append. -/
def AccountChanges.clone (change : AccountChanges) : AccountChanges :=
  { change with
    code := change.code.map fun slice => if slice.getD [] = [] then none else slice }

def cloneControlChanges (changes : ControlChanges) : ControlChanges :=
  changes.map fun _ change => change.clone

/-- The stored record of a control block: the JSON of its changes and its parent. -/
structure ControlRecord where
  metadata : ControlChanges
  parent : Hash
  deriving DecidableEq

/-! ## Events -/

inductive EventType where
  | block
  | controlBlock
  | missedSlot
  | chainReorg
  | finalizedCheckpoint
  deriving DecidableEq

structure Event where
  revision : Nat := 0
  type : EventType
  slot : Nat
  blockHash : Hash := 0
  blockNumber : Nat := 0
  removed : Bool := false
  oldHead : Hash := 0
  newHead : Hash := 0
  depth : Nat := 0
  deriving DecidableEq

end Ethertest
