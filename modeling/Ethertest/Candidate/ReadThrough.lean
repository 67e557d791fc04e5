-- SUMMARY: The store of a candidate state: an overlay in memory over the database that it reads through to.
import Ethertest.Base.Store
import Ethertest.Types

/-!
# Read-through stores

A candidate state is built on a store that keeps writes in memory and reads what it does not
hold from the database below. The overlay has no mark for a deleted key. Deleting a key takes
back what was written under it, and a value of the database below is then visible again.
Storage errors are left out.
-/

namespace Ethertest

namespace Candidate

/-! ## The store -/

/-- The entries that an iterator of a database yields. -/
def entriesFrom (db : Store Bytes Bytes) (keyPrefix start : Bytes) : List (Bytes × Bytes) :=
  db.toList.filter fun item => keyPrefix.isPrefixOf item.1 && (compare (keyPrefix ++ start) item.1).isLE

structure ReadThroughStore where
  /-- the embedded database, in memory -/
  database : Store Bytes Bytes := ∅
  base : Store Bytes Bytes

def newReadThroughStore (base : Store Bytes Bytes) : ReadThroughStore := { base := base }

namespace ReadThroughStore

/-- `Put` and `Delete` are those of the embedded database. -/
def write (s : ReadThroughStore) (op : Store.Write Bytes Bytes) : ReadThroughStore :=
  { s with database := s.database.write op }

def has (s : ReadThroughStore) (key : Bytes) : Bool :=
  if s.database[key]?.isSome then true else s.base[key]?.isSome

def get (s : ReadThroughStore) (key : Bytes) : Option Bytes :=
  if s.database[key]?.isSome then s.database[key]? else s.base[key]?

/-- `NewIterator`: both ranges are copied, the overlay's last, and the copy is iterated. -/
def newIterator (s : ReadThroughStore) (keyPrefix start : Bytes) : List (Bytes × Bytes) :=
  let merged := (∅ : Store Bytes Bytes).writeBatch
    (Store.puts (entriesFrom s.base keyPrefix start) ++ Store.puts (entriesFrom s.database keyPrefix start))
  entriesFrom merged keyPrefix start

/-- `candidateState.puts` -/
def puts (s : ReadThroughStore) : List (Bytes × Bytes) := s.database.toList

/-- A new store after some operations. -/
def run (base : Store Bytes Bytes) (ops : List (Store.Write Bytes Bytes)) : ReadThroughStore :=
  ops.foldl write (newReadThroughStore base)

end ReadThroughStore

/-! ## Ranges -/

section Ranges

variable {db db' : Store Bytes Bytes} {keyPrefix start : Bytes}

/-- The key is in the range of an iterator. -/
def InRange (keyPrefix start key : Bytes) : Prop :=
  keyPrefix <+: key ∧ compare (keyPrefix ++ start) key ≠ .gt

instance (keyPrefix start key : Bytes) : Decidable (InRange keyPrefix start key) :=
  inferInstanceAs (Decidable (_ ∧ _))

theorem mem_entriesFrom {key value : Bytes} :
    (key, value) ∈ entriesFrom db keyPrefix start ↔ db[key]? = some value ∧ InRange keyPrefix start key := by
  simp only [entriesFrom, List.mem_filter, Store.mem_toList, InRange, Bool.and_eq_true, List.isPrefixOf_iff_prefix,
    Ordering.isLE_iff_ne_gt]

/-- An iterator yields every key once, in order. -/
theorem entriesFrom_sorted : (entriesFrom db keyPrefix start).Pairwise fun a b => compare a.1 b.1 = .lt :=
  Std.ExtTreeMap.ordered_keys_toList.filter _

/-- Two databases have the same iterator exactly if they agree on its range. -/
theorem entriesFrom_eq_iff : entriesFrom db keyPrefix start = entriesFrom db' keyPrefix start ↔
    ∀ key, InRange keyPrefix start key → db[key]? = db'[key]? := by
  constructor
  · intro h key hkey
    refine Option.ext fun value => ?_
    have hmem : (key, value) ∈ entriesFrom db keyPrefix start ↔ (key, value) ∈ entriesFrom db' keyPrefix start := by
      rw [h]
    simpa [mem_entriesFrom, hkey] using hmem
  · intro h
    refine Store.filter_toList_eq_of_sorted entriesFrom_sorted fun key value => ?_
    rw [← Store.mem_toList]
    refine (List.mem_filter (p := fun item : Bytes × Bytes =>
      keyPrefix.isPrefixOf item.1 && (compare (keyPrefix ++ start) item.1).isLE)).symm.trans ?_
    change (key, value) ∈ entriesFrom db keyPrefix start ↔ _
    rw [mem_entriesFrom, mem_entriesFrom]
    exact and_congr_left fun hkey => by rw [h key hkey]

/-- What putting a range leaves at a key. -/
theorem lastWrite_entriesFrom (key : Bytes) :
    Store.lastWrite (Store.puts (entriesFrom db keyPrefix start)) key =
      if InRange keyPrefix start key then db[key]?.map some else none := by
  split
  · next hkey =>
    cases hget : db[key]? with
    | none =>
      refine Store.lastWrite_puts_eq_none ?_
      rintro ⟨key', value⟩ hitem rfl
      rw [mem_entriesFrom, hget] at hitem
      cases hitem.1
    | some value =>
      refine Store.lastWrite_puts_of_mem (mem_entriesFrom.mpr ⟨hget, hkey⟩) fun value' hvalue' => ?_
      rw [mem_entriesFrom, hget] at hvalue'
      exact (Option.some.inj hvalue'.1).symm
  · next hkey =>
    refine Store.lastWrite_puts_eq_none ?_
    rintro ⟨key', value⟩ hitem rfl
    exact hkey (mem_entriesFrom.mp hitem).2

end Ranges

/-! ## Reading through -/

namespace ReadThroughStore

variable {s : ReadThroughStore}

theorem get_eq (key : Bytes) : s.get key = s.database[key]?.or s.base[key]? := by
  unfold get
  cases s.database[key]? <;> rfl

theorem has_eq (key : Bytes) : s.has key = (s.get key).isSome := by
  rw [get_eq]
  unfold has
  cases s.database[key]? <;> rfl

/-- The merged range is the range of what is read key by key. -/
theorem newIterator_eq {db : Store Bytes Bytes} {keyPrefix start : Bytes} :
    s.newIterator keyPrefix start = entriesFrom db keyPrefix start ↔
      ∀ key, InRange keyPrefix start key → s.get key = db[key]? := by
  rw [newIterator, entriesFrom_eq_iff]
  refine forall_congr' fun key => imp_congr_right fun hkey => ?_
  rw [get_eq, Store.get_writeBatch, Store.lastWrite_append, lastWrite_entriesFrom, lastWrite_entriesFrom, if_pos hkey,
    if_pos hkey]
  cases s.database[key]? <;> cases s.base[key]? <;> rfl

theorem run_spec (base : Store Bytes Bytes) (ops : List (Store.Write Bytes Bytes)) :
    (run base ops).base = base ∧ (run base ops).database = (∅ : Store Bytes Bytes).writeBatch ops := by
  suffices h : ∀ s : ReadThroughStore, (ops.foldl write s).base = s.base ∧
      (ops.foldl write s).database = s.database.writeBatch ops from h _
  induction ops with
  | nil => exact fun s => ⟨rfl, rfl⟩
  | cons op ops ih => exact fun s => ih (s.write op)

end ReadThroughStore

/-- The key is in the base, and the last operation on it is a `Delete`. -/
def Uncovered (base : Store Bytes Bytes) (ops : List (Store.Write Bytes Bytes)) (key : Bytes) : Prop :=
  Store.lastWrite ops key = some none ∧ base[key]?.isSome

/-- What a store reads after some operations, against a copy of its base. -/
theorem ReadThroughStore.get_run (base : Store Bytes Bytes) (ops : List (Store.Write Bytes Bytes)) (key : Bytes) :
    (run base ops).get key = (base.writeBatch ops)[key]? ↔ ¬ Uncovered base ops key := by
  obtain ⟨hbase, hdatabase⟩ := run_spec base ops
  rw [get_eq, hbase, hdatabase, Store.get_writeBatch, Store.get_writeBatch, Uncovered]
  cases Store.lastWrite ops key with
  | none => simp
  | some last => cases last <;> cases base[key]? <;> simp

theorem ReadThroughStore.has_run (base : Store Bytes Bytes) (ops : List (Store.Write Bytes Bytes)) (key : Bytes) :
    (run base ops).has key = (base.writeBatch ops)[key]?.isSome ↔ ¬ Uncovered base ops key := by
  obtain ⟨hbase, hdatabase⟩ := run_spec base ops
  rw [has_eq, get_eq, hbase, hdatabase, Store.get_writeBatch, Store.get_writeBatch, Uncovered]
  cases Store.lastWrite ops key with
  | none => simp
  | some last => cases last <;> cases base[key]? <;> simp

open ReadThroughStore in
/-- How a store answers, over every base and after all operations: its base and the puts for the
journal are as they should be, and a read is that of a private copy of the base exactly if it is
not about a key of the base that was deleted and not written again. -/
structure Answers (base : Store Bytes Bytes) (ops : List (Store.Write Bytes Bytes)) : Prop where
  unchanged : (run base ops).base = base
  puts : ∀ key value, (key, value) ∈ (run base ops).puts ↔ Store.lastWrite ops key = some (some value)
  puts_sorted : (run base ops).puts.Pairwise fun a b => compare a.1 b.1 = .lt
  has : ∀ key, (run base ops).has key = (base.writeBatch ops)[key]?.isSome ↔ ¬ Uncovered base ops key
  get : ∀ key, (run base ops).get key = (base.writeBatch ops)[key]? ↔ ¬ Uncovered base ops key
  iterator : ∀ keyPrefix start, (run base ops).newIterator keyPrefix start =
      entriesFrom (base.writeBatch ops) keyPrefix start ↔
    ∀ key, InRange keyPrefix start key → ¬ Uncovered base ops key
  iterator_sorted : ∀ keyPrefix start,
    ((run base ops).newIterator keyPrefix start).Pairwise fun a b => compare a.1 b.1 = .lt

theorem readThroughStore_answers (base : Store Bytes Bytes) (ops : List (Store.Write Bytes Bytes)) :
    Answers base ops := by
  obtain ⟨hbase, hdatabase⟩ := ReadThroughStore.run_spec base ops
  refine ⟨hbase, fun key value => ?_, Std.ExtTreeMap.ordered_keys_toList,
    ReadThroughStore.has_run base ops, ReadThroughStore.get_run base ops, fun keyPrefix start => ?_,
    fun keyPrefix start => entriesFrom_sorted⟩
  · rw [ReadThroughStore.puts, Store.mem_toList, hdatabase, Store.get_writeBatch]
    cases Store.lastWrite ops key with
    | none => simp
    | some last => simp
  · rw [ReadThroughStore.newIterator_eq]
    exact forall_congr' fun key => imp_congr_right fun _ => ReadThroughStore.get_run base ops key

/-- A deleted key of the base is gone from the copy, and the store still has it. -/
theorem readThroughStore_revives :
    let base : Store Bytes Bytes := (∅ : Store Bytes Bytes).insert [1] [2]
    (Store.writeBatch base [.delete [1]])[([1] : Bytes)]? = none ∧
      (ReadThroughStore.run base [.delete [1]]).has [1] = true ∧
      (ReadThroughStore.run base [.delete [1]]).get [1] = some [2] ∧
      (ReadThroughStore.run base [.delete [1]]).newIterator [] [] = [([1], [2])] := by
  decide +kernel

end Candidate

end Ethertest
