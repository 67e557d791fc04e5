-- SUMMARY: The node's database: typed keys and values, geth's chain entries, and the journal record.
import Ethertest.Records

/-!
# The database

One ordered key-value store holds geth's data and the node's own metadata. A key is
one constructor of `Key` with its arguments; the source's byte keys are injective in
them. The recovery journal is a database entry like any other, but its value contains
entries, so it is kept in a field of its own.
-/

namespace Ethertest

inductive Key where
  /-- `ethertest/meta/schema-version` -/
  | stateSchema
  /-- `ethertest/meta/timeline` -/
  | timeline
  /-- `ethertest/meta/session-safety` -/
  | sessionSafety
  /-- `ethertest/meta/event-next` -/
  | eventNext
  /-- `ethertest/execution-requests/pending` -/
  | requestQueue
  /-- `ethertest/canonical-slot/` -/
  | canonicalSlot (slot : Nat)
  /-- `ethertest/block-slot/` -/
  | blockSlot (hash : Hash)
  /-- `ethertest/block-safety/` -/
  | blockSafety (hash : Hash)
  /-- `ethertest/beacon-projection/` -/
  | projection (hash : Hash)
  /-- `ethertest/execution-requests/block/` -/
  | requestRecord (hash : Hash)
  /-- `ethertest/control/` -/
  | control (hash : Hash)
  /-- `ethertest/blob/` -/
  | blob (hash : Hash)
  /-- `ethertest/event/` -/
  | event (revision : Nat)
  /-- `ethertest/checkpoint/` -/
  | checkpoint (name : Bytes)
  /-- `ethertest/branch/` -/
  | branch (name : Bytes)
  /-- geth: header and body of a block -/
  | block (hash : Hash)
  /-- geth: receipts of a block -/
  | receipts (hash : Hash)
  /-- geth: canonical hash of a number -/
  | canonicalHash (number : Nat)
  /-- geth: hash of the head block -/
  | headBlock
  /-- geth: number of the canonical block that holds a transaction -/
  | txLookup (hash : Hash)
  /-- geth: trie nodes, code and preimages -/
  | state (key : Nat)
  deriving DecidableEq

namespace Key

/-- The position of a key in the key order. -/
def code : Key → List Nat
  | stateSchema => [0]
  | timeline => [1]
  | sessionSafety => [2]
  | eventNext => [3]
  | requestQueue => [4]
  | canonicalSlot slot => [5, slot]
  | blockSlot hash => [6, hash]
  | blockSafety hash => [7, hash]
  | projection hash => [8, hash]
  | requestRecord hash => [9, hash]
  | control hash => [10, hash]
  | blob hash => [11, hash]
  | event revision => [12, revision]
  | checkpoint name => 13 :: name.map UInt8.toNat
  | branch name => 14 :: name.map UInt8.toNat
  | block hash => [15, hash]
  | receipts hash => [16, hash]
  | canonicalHash number => [17, number]
  | headBlock => [18]
  | txLookup hash => [19, hash]
  | state key => [20, key]

theorem code_injective : Function.Injective code := by
  have hname : Function.Injective (List.map UInt8.toNat) :=
    List.map_injective_iff.mpr fun _ _ => UInt8.toNat_inj.mp
  intro a b h
  cases a <;> cases b <;> simp_all [code, hname.eq_iff]

instance : Ord Key := ⟨compareOn code⟩

instance : Std.TransOrd Key := inferInstanceAs (Std.TransCmp (compareOn code))

instance : Std.LawfulEqOrd Key where
  eq_of_compare h := code_injective (Std.LawfulEqOrd.eq_of_compare h)

end Key

structure StoredBranch where
  name : Bytes
  base : Hash
  head : Hash
  tainted : Bool
  deriving DecidableEq

inductive Value where
  | version (n : Nat)
  | timeline (t : StoredTimeline)
  | session (s : StoredSessionSafety)
  | revision (n : Nat)
  | queue (q : ExecutionRequestQueue)
  | hash (h : Hash)
  | slot (n : Nat)
  | safety (s : BlockSafety)
  | projection (p : StoredProjection)
  | record (r : ExecutionRequestRecord)
  | control (c : ControlRecord)
  | bundle (b : BlobBundle)
  | event (e : Event)
  | point (p : StoredChainPoint)
  | branch (b : StoredBranch)
  | block (b : Block)
  | receipts (r : List Receipt)
  | blockNumber (n : Nat)
  | node (data : Bytes)
  deriving DecidableEq

/-- One put of a batch. -/
abbrev KV := Key × Value

abbrev Entries := Store Key Value

inductive Kind where
  | head
  | block
  | other (text : String)
  deriving DecidableEq

/-- `currentMetadataFormat` -/
def currentMetadataFormat : Nat := 3

/-- A recovery journal. -/
structure PreparedOperation where
  version : Nat := 0
  kind : Kind
  oldHead : Hash := 0
  newHead : Hash := 0
  targetBlock : Hash := 0
  targetNumber : Nat := 0
  discardTargetOnCancel : Bool := false
  executionPuts : List KV := []
  rollbackDeletes : List Key := []
  puts : List KV := []
  deletes : List Key := []
  deriving DecidableEq

structure Db where
  entries : Entries := ∅
  /-- the value of `ethertest/meta/prepared-operation` -/
  journal : Option PreparedOperation := none
  deriving DecidableEq

namespace Db

def get (db : Db) (k : Key) : Option Value := db.entries[k]?

def has (db : Db) (k : Key) : Bool := (db.get k).isSome

/-- Write a batch of entries. -/
def write (db : Db) (batch : List (Store.Write Key Value)) : Db :=
  { db with entries := db.entries.writeBatch batch }

theorem get_write (db : Db) (batch : List (Store.Write Key Value)) (k : Key) :
    (db.write batch).get k = (Store.lastWrite batch k).getD (db.get k) :=
  Store.get_writeBatch _ _ _

/-- Two databases that agree on every key and on the journal are equal. -/
theorem ext_get {db db' : Db} (h : ∀ k, db.get k = db'.get k) (hj : db.journal = db'.journal) :
    db = db' := by
  obtain ⟨e, j⟩ := db
  obtain ⟨e', j'⟩ := db'
  obtain rfl : j = j' := hj
  obtain rfl : e = e' := Store.ext_get h
  rfl

/-! ## geth's chain entries -/

/-- `GetBlockByHash` -/
def blockByHash (db : Db) (hash : Hash) : Option Block :=
  match db.get (.block hash) with
  | some (.block b) => some b
  | _ => none

/-- `GetBlock` and `rawdb.ReadBlock`: the block of a hash, if it has the given number. -/
def readBlock (db : Db) (hash : Hash) (number : Nat) : Option Block :=
  (db.blockByHash hash).filter fun b => b.number = number

/-- `GetCanonicalHash`; the zero hash if there is none. -/
def canonicalHash (db : Db) (number : Nat) : Hash :=
  match db.get (.canonicalHash number) with
  | some (.hash h) => h
  | _ => 0

/-- `GetBlockByNumber` -/
def blockByNumber (db : Db) (number : Nat) : Option Block :=
  match db.get (.canonicalHash number) with
  | some (.hash h) => db.readBlock h number
  | _ => none

/-- The hash of the head block. -/
def headHash (db : Db) : Hash :=
  match db.get .headBlock with
  | some (.hash h) => h
  | _ => 0

/-- `CurrentBlock`, with its body. -/
def currentBlock (db : Db) : Option Block :=
  db.blockByHash db.headHash

/-- `rawdb.ReadTxLookupEntry` -/
def txLookup (db : Db) (hash : Hash) : Option Nat :=
  match db.get (.txLookup hash) with
  | some (.blockNumber n) => some n
  | _ => none

/-- The block's parent, looked up by hash. -/
def parent (db : Db) (b : Block) : Option Block :=
  db.blockByHash b.parentHash

end Db

end Ethertest
