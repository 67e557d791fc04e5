-- SUMMARY: The database of an archive: writing all its entries as records, and reading them back.
import Ethertest.Base.Keyed
import Ethertest.Base.Store
import Ethertest.Types

/-!
# Archived databases

An archive holds the entries of a database as records in the order of their keys. The
decoder reads them from a stream of known size, checks their order and puts them in batches.
-/

namespace Ethertest

namespace Archive

open Keyed

/-! ## Writing -/

/-- `encodeDatabaseToWriter` -/
def encodeDatabase (db : Store Bytes Bytes) : Except Error Bytes :=
  db.toList.foldlM
    (fun written item => do
      failIf (2 ^ 32 - 1 < item.1.length ∨ 2 ^ 32 - 1 < item.2.length)
        (.new "database record exceeds archive encoding limit")
      .ok (written ++ record item)) []

/-- A database is written if its records fit, record by record. -/
theorem encodeDatabase_eq_ok {db : Store Bytes Bytes} {b : Bytes} :
    encodeDatabase db = .ok b ↔ (∀ item ∈ db.toList, Fits item) ∧ b = encode db.toList := by
  suffices hfold : ∀ (items : List Item) (written : Bytes),
      items.foldlM
        (fun written item => do
          failIf (2 ^ 32 - 1 < item.1.length ∨ 2 ^ 32 - 1 < item.2.length)
            (Error.new "database record exceeds archive encoding limit")
          .ok (written ++ record item)) written = .ok b ↔
        (∀ item ∈ items, Fits item) ∧ b = written ++ encode items from hfold db.toList []
  intro items
  induction items with
  | nil =>
    intro written
    rw [List.foldlM_nil, encode_nil, List.append_nil]
    simp [pure, Except.pure, eq_comm]
  | cons item items ih =>
    intro written
    have hlimit : ¬ (2 ^ 32 - 1 < item.1.length ∨ 2 ^ 32 - 1 < item.2.length) ↔ Fits item := by
      rw [Fits]
      omega
    simp only [List.foldlM_cons, Except.do_ok_iff, exists_const, failIf_eq_ok, Except.ok.injEq, hlimit, and_assoc,
      exists_and_left, exists_eq_left', ih, List.forall_mem_cons, encode_cons, List.append_assoc]

/-! ## Reading -/

/-- `io.ReadFull` -/
def readFull (reader : Bytes) (count : Nat) : Option (Bytes × Bytes) :=
  if reader.length < count then none else some (reader.take count, reader.drop count)

/-- What is left to read, and the buffer of the key before. -/
structure Scan where
  reader : Bytes
  remaining : Nat
  /-- `none` is the nil slice -/
  previousKey : Option Bytes := none

/-- `append(previousKey[:0], key...)`. An empty key leaves a nil buffer nil. -/
def keepKey : Option Bytes → Bytes → Option Bytes
  | none, [] => none
  | _, key => some key

/-- The record at the front. -/
def Scan.next (s : Scan) : Except Error (Item × Scan) := do
  failIf (s.remaining < 8) (.new "corrupt database record header")
  let (lengths, reader) ← orFail (readFull s.reader 8) (.new "corrupt database record header")
  let remaining := s.remaining - 8
  let keySize := beNat (lengths.take 4)
  let valueSize := beNat (lengths.drop 4)
  failIf (remaining < keySize + valueSize) (.new "corrupt database record length")
  let (key, reader) ← orFail (readFull reader keySize) (.new "corrupt database key")
  let (value, reader) ← orFail (readFull reader valueSize) (.new "corrupt database value")
  failIf (s.previousKey.any fun previous => compare previous key ≠ .lt)
    (.new "archive database keys are duplicated or out of order")
  .ok ((key, value), {
    reader := reader
    remaining := remaining - (keySize + valueSize)
    previousKey := keepKey s.previousKey key })

theorem readFull_eq_some {reader read rest : Bytes} {count : Nat} :
    readFull reader count = some (read, rest) ↔ reader = read ++ rest ∧ read.length = count := by
  unfold readFull
  split
  · next hshort =>
    simp only [reduceCtorEq, false_iff]
    rintro ⟨rfl, rfl⟩
    rw [List.length_append] at hshort
    omega
  · next hlong =>
    simp only [Option.some.injEq, Prod.mk.injEq]
    constructor
    · rintro ⟨rfl, rfl⟩
      exact ⟨(List.take_append_drop _ _).symm, by rw [List.length_take]; omega⟩
    · rintro ⟨rfl, rfl⟩
      exact ⟨List.take_left, List.drop_left⟩

theorem Scan.next_remaining {s s' : Scan} {item : Item} (h : s.next = .ok (item, s')) : s'.remaining < s.remaining := by
  simp only [next, Except.do_ok_iff, exists_const, failIf_eq_ok, orFail_eq_ok, Except.ok.injEq, Prod.mk.injEq] at h
  obtain ⟨hheader, ⟨lengths, reader⟩, -, -, ⟨key, reader₁⟩, -, ⟨value, reader₂⟩, -, -, -, rfl⟩ := h
  change s.remaining - 8 - _ < s.remaining
  omega

/-- The loop of `decodeDatabaseReader`. The size of a batch is whatever the database counts. -/
def decodeRecords (valueSize : List Item → Nat) (s : Scan) (batch : List Item) (db : Store Bytes Bytes) :
    Except Error (Store Bytes Bytes) :=
  if s.remaining = 0 then .ok (db.writeBatch (Store.puts batch))
  else
    match h : s.next with
    | .error err => .error err
    | .ok (item, rest) =>
      have := Scan.next_remaining h
      let batch := batch ++ [item]
      if 4 * 2 ^ 20 ≤ valueSize batch then decodeRecords valueSize rest [] (db.writeBatch (Store.puts batch))
      else decodeRecords valueSize rest batch db
termination_by s.remaining

/-- `decodeDatabaseReader` -/
def decodeDatabaseReader (valueSize : List Item → Nat) (reader : Bytes) (size : Nat) (db : Store Bytes Bytes) :
    Except Error (Store Bytes Bytes) :=
  decodeRecords valueSize { reader := reader, remaining := size } [] db

/-! ## One record -/

/-- A string that is presented with its length. -/
def Scan.Sized (s : Scan) : Prop := s.remaining = s.reader.length

variable {s s' : Scan} {item : Item}

/-- What a scan accepts at the front, and what it leaves. -/
theorem Scan.next_eq_ok (hs : s.Sized) : s.next = .ok (item, s') ↔
    Fits item ∧ s.reader = record item ++ s'.reader ∧ s'.Sized ∧
      (∀ previous, s.previousKey = some previous → compare previous item.1 = .lt) ∧
      s'.previousKey = keepKey s.previousKey item.1 := by
  unfold Sized at hs ⊢
  simp only [next, Except.do_ok_iff, exists_const, failIf_eq_ok, orFail_eq_ok, Except.ok.injEq, Prod.mk.injEq,
    Prod.exists, readFull_eq_some]
  constructor
  · rintro ⟨hheader, lengths, reader, ⟨hreader, hlengths⟩, hsize, key, reader₁, ⟨rfl, hkey⟩, value, reader₂,
      ⟨rfl, hvalue⟩, horder, rfl, rfl⟩
    obtain ⟨hfits, rfl⟩ := header_of_lengths (x := (key, value)) hlengths hkey.symm hvalue.symm
    refine ⟨hfits, by simp [hreader, record], ?_, fun previous hprevious => ?_, rfl⟩
    · rw [hs, hreader]
      simp only [List.length_append, length_header, hkey, hvalue]
      omega
    · simpa [hprevious] using horder
  · rintro ⟨hfits, hreader, hsized, horder, hprevious⟩
    obtain ⟨key, value⟩ := item
    have hlength : s.remaining = 8 + (key.length + value.length) + s'.reader.length := by
      rw [hs, hreader, List.length_append, length_record]
    obtain ⟨hkey, hvalue⟩ := beNat_header hfits
    refine ⟨by omega, header (key, value), key ++ (value ++ s'.reader), ⟨by simp [hreader, record], by simp⟩, ?_,
      key, value ++ s'.reader, ⟨rfl, hkey.symm⟩, value, s'.reader, ⟨rfl, hvalue.symm⟩, ?_, rfl, ?_⟩
    · rw [hkey, hvalue]
      dsimp only
      omega
    · cases hkept : s.previousKey with
      | none => simp
      | some previous => simpa using horder previous hkept
    · obtain ⟨reader, remaining, previousKey⟩ := s'
      simp only [Scan.mk.injEq, true_and]
      refine ⟨?_, hprevious.symm⟩
      rw [hkey, hvalue]
      dsimp only at hsized hlength ⊢
      omega

/-! ## All records -/

/-- The keys may follow a key buffer. -/
def Follows : Option Bytes → List Bytes → Prop
  | _, [] => True
  | previous, key :: keys => (∀ p, previous = some p → compare p key = .lt) ∧ Follows (keepKey previous key) keys

/-- The strings that the loop accepts, and what it makes of the database. -/
theorem decodeRecords_eq_ok {valueSize : List Item → Nat} {batch : List Item} {db db' : Store Bytes Bytes}
    (hs : s.Sized) : decodeRecords valueSize s batch db = .ok db' ↔
      ∃ items, (∀ item ∈ items, Fits item) ∧ s.reader = encode items ∧ Follows s.previousKey (items.map (·.1)) ∧
        db' = db.writeBatch (Store.puts (batch ++ items)) := by
  induction hn : s.remaining using Nat.strong_induction_on generalizing s batch db with
  | _ n ih =>
  subst hn
  have hputs (items items' : List Item) : Store.puts (items ++ items') = Store.puts items ++ Store.puts items' :=
    List.map_append
  have hnil : s.remaining = 0 ↔ s.reader = [] := by
    rw [hs, List.length_eq_zero_iff]
  unfold decodeRecords
  by_cases hdone : s.remaining = 0
  · rw [if_pos hdone, Except.ok.injEq]
    constructor
    · rintro rfl
      exact ⟨[], by simp, hnil.mp hdone, trivial, by simp⟩
    · rintro ⟨items, hfits, hreader, -, rfl⟩
      rw [hnil.mp hdone] at hreader
      obtain rfl : [] = items := encode_inj (by simp) hfits hreader
      simp
  · rw [if_neg hdone]
    -- the records after the first are read by the rest of the loop, in this batch or in a new one
    have hrest (item : Item) (s' : Scan) (hnext : s.next = .ok (item, s')) :
        (if 4 * 2 ^ 20 ≤ valueSize (batch ++ [item]) then
            decodeRecords valueSize s' [] (db.writeBatch (Store.puts (batch ++ [item])))
          else decodeRecords valueSize s' (batch ++ [item]) db) = .ok db' ↔
        ∃ items, (∀ item ∈ items, Fits item) ∧ s'.reader = encode items ∧
          Follows s'.previousKey (items.map (·.1)) ∧ db' = db.writeBatch (Store.puts (batch ++ item :: items)) := by
      have hsized := ((Scan.next_eq_ok hs).mp hnext).2.2.1
      have happend (items : List Item) : batch ++ item :: items = (batch ++ [item]) ++ items := by simp
      split
      · rw [ih _ (Scan.next_remaining hnext) hsized rfl]
        refine exists_congr fun items => ?_
        rw [happend items, hputs (batch ++ [item]), Store.writeBatch_append, List.nil_append]
      · rw [ih _ (Scan.next_remaining hnext) hsized rfl]
        refine exists_congr fun items => ?_
        rw [happend items]
    constructor
    · intro h
      split at h
      · cases h
      · next item s' hnext =>
        obtain ⟨items, hfits, hreader, hfollows, hdb⟩ := (hrest item s' hnext).mp h
        obtain ⟨hitem, hfront, -, horder, hprevious⟩ := (Scan.next_eq_ok hs).mp hnext
        exact ⟨item :: items, List.forall_mem_cons.mpr ⟨hitem, hfits⟩, by rw [hfront, hreader, encode_cons],
          ⟨horder, hprevious ▸ hfollows⟩, hdb⟩
    · rintro ⟨items, hfits, hreader, hfollows, hdb⟩
      cases items with
      | nil => exact absurd (hnil.mpr hreader) hdone
      | cons item items =>
        rw [List.forall_mem_cons] at hfits
        have hnext : s.next = .ok (item, ⟨encode items, (encode items).length, keepKey s.previousKey item.1⟩) :=
          (Scan.next_eq_ok hs).mpr ⟨hfits.1, hreader, rfl, hfollows.1, rfl⟩
        have h := (hrest _ _ hnext).mpr ⟨items, hfits.2, rfl, hfollows.2, hdb⟩
        split
        · next hfail =>
          rw [hnext] at hfail
          cases hfail
        · next item' s' hnext' =>
          rw [hnext, Except.ok.injEq, Prod.mk.injEq] at hnext'
          obtain ⟨rfl, rfl⟩ := hnext'
          exact h

/-! ## The order of the keys -/

/-- After a key that is kept, the keys increase strictly. -/
theorem follows_some {key : Bytes} {keys : List Bytes} :
    Follows (some key) keys ↔ (key :: keys).Pairwise fun k k' => compare k k' = .lt := by
  have : Trans (fun k k' : Bytes => compare k k' = .lt) (fun k k' => compare k k' = .lt)
      fun k k' => compare k k' = .lt :=
    ⟨Std.TransCmp.lt_trans⟩
  rw [← List.isChain_iff_pairwise]
  induction keys generalizing key with
  | nil => simp [Follows]
  | cons key' keys ih => simp [Follows, keepKey, ih]

/-- At the start the empty key may be repeated. -/
theorem follows_none {keys : List Bytes} :
    Follows none keys ↔ keys.Pairwise fun k k' => compare k k' = .lt ∨ k = [] ∧ k' = [] := by
  have hempty (k : Bytes) : compare ([] : Bytes) k = .lt ∨ k = [] := by
    cases k with
    | nil => exact .inr rfl
    | cons => exact .inl rfl
  induction keys with
  | nil => simp [Follows]
  | cons key keys ih =>
    cases key with
    | nil =>
      simp only [Follows, keepKey, ih, List.pairwise_cons, true_and, reduceCtorEq, false_imp_iff, implies_true,
        iff_and_self]
      exact fun _ k _ => hempty k
    | cons b bs =>
      have hne (k k' : Bytes) (hk : compare (b :: bs) k = .lt) : k ≠ [] := by
        rintro rfl
        cases hk
      simp only [Follows, keepKey, follows_some, List.pairwise_cons, reduceCtorEq, false_imp_iff, implies_true,
        true_and, false_and, or_false, and_congr_right_iff]
      intro hfirst
      refine List.Pairwise.iff_of_mem fun {k k'} hk hk' => ?_
      simp [hne k k' (hfirst k hk)]

end Archive

end Ethertest
