-- SUMMARY: The archive decoder accepts only canonical encodings, unless the empty key is repeated at the front.
import Ethertest.Archive.Database

/-!
# Canonical archives

The decoder keeps the last key in a buffer and takes a nil buffer for the start. The empty
key leaves a nil buffer nil, so that a second record with the empty key is not compared with
the first one, and overwrites it. Every other string that is accepted is the encoding of the
map it is decoded to.
-/

namespace Ethertest

namespace Archive

open Keyed

/-- A string that is presented with its length is decoded into an empty database. -/
def Decodes (valueSize : List Item → Nat) (b : Bytes) (db : Store Bytes Bytes) : Prop :=
  decodeDatabaseReader valueSize b b.length ∅ = .ok db

/-- A string is the concatenation of records with strictly increasing keys. -/
structure Lists (b : Bytes) (items : List Item) : Prop where
  fits : ∀ item ∈ items, Fits item
  encoded : b = encode items
  ordered : items.Pairwise fun x y => compare x.1 y.1 = .lt

/-- The same, but the empty key may be repeated. -/
structure ListsRepeating (b : Bytes) (items : List Item) : Prop where
  fits : ∀ item ∈ items, Fits item
  encoded : b = encode items
  ordered : items.Pairwise fun x y => compare x.1 y.1 = .lt ∨ x.1 = [] ∧ y.1 = []

/-- The string starts with two records of the empty key. -/
def RepeatsEmpty (b : Bytes) : Prop :=
  ∃ v v' rest, Fits ([], v) ∧ Fits ([], v') ∧ b = record ([], v) ++ (record ([], v') ++ rest)

/-- The decoder accepts a string exactly if it lists records in order, and reads these. -/
def Canonical (valueSize : List Item → Nat) (b : Bytes) : Prop :=
  ((∃ db, Decodes valueSize b db) ↔ ∃ items, Lists b items) ∧
  ∀ items db, Lists b items → Decodes valueSize b db → db.toList = items

variable {valueSize : List Item → Nat} {b b' : Bytes} {db : Store Bytes Bytes} {items : List Item}

theorem decodes_iff : Decodes valueSize b db ↔
    ∃ items, ListsRepeating b items ∧ db = (∅ : Store Bytes Bytes).writeBatch (Store.puts items) := by
  have hsized : Scan.Sized { reader := b, remaining := b.length } := rfl
  rw [Decodes, decodeDatabaseReader, decodeRecords_eq_ok hsized]
  simp only [follows_none, List.pairwise_map, List.nil_append]
  constructor
  · rintro ⟨items, hfits, hencoded, hordered, hdb⟩
    exact ⟨items, ⟨hfits, hencoded, hordered⟩, hdb⟩
  · rintro ⟨items, h, hdb⟩
    exact ⟨items, h.fits, h.encoded, h.ordered, hdb⟩

theorem Lists.decodes (h : Lists b items) :
    Decodes valueSize b ((∅ : Store Bytes Bytes).writeBatch (Store.puts items)) :=
  decodes_iff.mpr ⟨items, ⟨h.fits, h.encoded, h.ordered.imp Or.inl⟩, rfl⟩

theorem Lists.unique {items' : List Item} (h : Lists b items) (h' : Lists b items') : items = items' :=
  encode_inj h.fits h'.fits (h.encoded.symm.trans h'.encoded)

/-- If the second key is not empty, no later one is, and all increase strictly. -/
theorem strict_of_second {x : Item} (hfirst : ∀ y, items.head? = some y → y.1 ≠ [])
    (h : (x :: items).Pairwise fun x y => compare x.1 y.1 = .lt ∨ x.1 = [] ∧ y.1 = []) :
    (x :: items).Pairwise fun x y => compare x.1 y.1 = .lt := by
  have hne : ∀ y ∈ items, y.1 ≠ [] := by
    cases items with
    | nil => simp
    | cons second rest =>
      have hsecond := hfirst second rfl
      intro y hy
      rcases List.mem_cons.mp hy with rfl | hy
      · exact hsecond
      · rintro hempty
        rcases (List.pairwise_cons.mp (List.pairwise_cons.mp h).2).1 y hy with hlt | ⟨hnil, -⟩
        · rw [hempty] at hlt
          cases hkey : second.1 with
          | nil => exact hsecond hkey
          | cons => rw [hkey] at hlt; cases hlt
        · exact hsecond hnil
  rw [List.pairwise_cons] at h ⊢
  exact ⟨fun y hy => (h.1 y hy).resolve_right fun hboth => hne y hy hboth.2,
    h.2.imp_of_mem fun _ hy hxy => hxy.resolve_right fun hboth => hne _ hy hboth.2⟩

/-- What is accepted is listed in order, unless it repeats the empty key at the front. -/
theorem Decodes.lists (h : Decodes valueSize b db) (hrepeats : ¬ RepeatsEmpty b) : Lists b db.toList := by
  obtain ⟨items, ⟨hfits, rfl, hordered⟩, rfl⟩ := decodes_iff.mp h
  have hstrict : items.Pairwise fun x y => compare x.1 y.1 = .lt := by
    cases items with
    | nil => exact .nil
    | cons x rest =>
      refine strict_of_second (fun y hy hempty => hrepeats ?_) hordered
      obtain ⟨rest, rfl⟩ := List.head?_eq_some_iff.mp hy
      rw [List.forall_mem_cons, List.forall_mem_cons] at hfits
      have hfirst : x.1 = [] := by
        rcases (List.pairwise_cons.mp hordered).1 y List.mem_cons_self with hlt | hboth
        · rw [hempty] at hlt
          cases hkey : x.1 with
          | nil => rfl
          | cons => rw [hkey] at hlt; cases hlt
        · exact hboth.1
      obtain ⟨k, v⟩ := x
      obtain ⟨k', v'⟩ := y
      obtain rfl : k = [] := hfirst
      obtain rfl : k' = [] := hempty
      exact ⟨v, v', encode rest, hfits.1, hfits.2.1, rfl⟩
  rw [Store.toList_writeBatch_puts hstrict]
  exact ⟨hfits, rfl, hstrict⟩

/-- What is listed in order does not repeat a key. -/
theorem Lists.not_repeats (h : Lists b items) : ¬ RepeatsEmpty b := by
  rintro ⟨v, v', rest, hv, hv', heq⟩
  obtain ⟨hfits, rfl, hordered⟩ := h
  match items with
  | [] => exact record_append_ne_nil _ _ heq.symm
  | x :: items =>
    rw [List.forall_mem_cons] at hfits
    obtain ⟨rfl, hrest⟩ := record_append_inj hfits.1 hv heq
    match items with
    | [] => exact record_append_ne_nil _ _ hrest.symm
    | y :: items =>
      rw [List.forall_mem_cons] at hfits
      obtain ⟨rfl, -⟩ := record_append_inj hfits.2.1 hv' hrest
      have hlt := (List.pairwise_cons.mp hordered).1 _ List.mem_cons_self
      cases hlt

/-- The archive decoder accepts exactly the canonical encodings and reads the listed map, for
every string but the records in order that start with two of the empty key; and two accepted
strings without such a repetition never decode to the same map. -/
theorem decodeDatabase_canonical (valueSize : List Item → Nat) :
    (∀ b, Canonical valueSize b ↔ ¬ (RepeatsEmpty b ∧ ∃ items, ListsRepeating b items)) ∧
    ∀ b b' db, ¬ RepeatsEmpty b → ¬ RepeatsEmpty b' → Decodes valueSize b db → Decodes valueSize b' db → b = b' := by
  refine ⟨fun b => ⟨fun h => ?_, fun h => ⟨⟨fun haccepted => ?_, fun hlists => ?_⟩, fun items db hlists hdb => ?_⟩⟩, ?_⟩
  · rintro ⟨hrepeats, items, hrepeating⟩
    obtain ⟨items, hlists⟩ := h.1.mp ⟨_, decodes_iff.mpr ⟨items, hrepeating, rfl⟩⟩
    exact hlists.not_repeats hrepeats
  · obtain ⟨db, hdb⟩ := haccepted
    obtain ⟨items, hrepeating, -⟩ := decodes_iff.mp hdb
    exact ⟨db.toList, hdb.lists fun hrepeats => h ⟨hrepeats, items, hrepeating⟩⟩
  · obtain ⟨items, hlists⟩ := hlists
    exact ⟨_, hlists.decodes⟩
  · exact (hdb.lists hlists.not_repeats).unique hlists
  · intro b b' db hb hb' hdb hdb'
    exact (hdb.lists hb).encoded.trans (hdb'.lists hb').encoded.symm

/-- The size of a batch as a database in memory counts it. -/
def batchSize (items : List Item) : Nat := (items.map fun item => item.1.length + item.2.length).sum

/-- Records in the order of their keys, one of which continues another. -/
def ascending : List Item := [([], [2]), ([1], [3]), ([1, 0], [])]

/-- Two records in the wrong order. -/
def descending : List Item := [([1], [3]), ([], [2])]

theorem decodeDatabase_canonical_ordered :
    (∃ db, Decodes batchSize (encode ascending) db ∧ db.toList = ascending) ∧
      ¬ ∃ db, Decodes batchSize (encode descending) db := by
  have hlists : Lists (encode ascending) ascending := ⟨by decide, rfl, by decide⟩
  obtain ⟨haccepts, hreads⟩ :=
    ((decodeDatabase_canonical batchSize).1 (encode ascending)).mpr fun h => hlists.not_repeats h.1
  obtain ⟨db, hdb⟩ := haccepts.mpr ⟨_, hlists⟩
  have hfits : ∀ item ∈ descending, Fits item := by decide
  have hfirst : ¬ RepeatsEmpty (encode descending) := by
    rintro ⟨v, v', rest, hv, -, heq⟩
    cases (record_append_inj (hfits _ List.mem_cons_self) hv heq).1
  refine ⟨⟨db, hdb, hreads _ db hlists hdb⟩, fun haccepted => ?_⟩
  obtain ⟨items, hitems⟩ := (((decodeDatabase_canonical batchSize).1 _).mpr fun h => hfirst h.1).1.mp haccepted
  have hordered := hitems.ordered
  rw [← encode_inj hfits hitems.fits hitems.encoded] at hordered
  exact absurd hordered (by decide)

/-- Two records of the empty key, with the values 1 and 2. -/
def repeated : Bytes := [0, 0, 0, 0, 0, 0, 0, 1, 1, 0, 0, 0, 0, 0, 0, 0, 1, 2]

/-- The second of the two records. -/
def overwriting : Bytes := [0, 0, 0, 0, 0, 0, 0, 1, 2]

/-- The empty key is accepted twice; the first of its values is lost. -/
theorem not_canonical_repeated : ¬ Canonical batchSize repeated ∧
    ∃ db, Decodes batchSize repeated db ∧ Decodes batchSize overwriting db := by
  have hlists : Lists overwriting [([], [2])] := ⟨by decide, by decide, by simp⟩
  have hdecodes : Decodes batchSize repeated ((∅ : Store Bytes Bytes).writeBatch (Store.puts [([], [1]), ([], [2])])) :=
    decodes_iff.mpr ⟨_, ⟨by decide, by decide, by simp⟩, rfl⟩
  have hrepeats : RepeatsEmpty repeated := ⟨[1], [2], [], by decide, by decide, by decide⟩
  have hsame : (∅ : Store Bytes Bytes).writeBatch (Store.puts [([], [1]), ([], [2])]) =
      (∅ : Store Bytes Bytes).writeBatch (Store.puts [([], [2])]) := by
    refine Store.ext_get fun k => ?_
    rw [Store.get_writeBatch, Store.get_writeBatch]
    by_cases hk : ([] : Bytes) = k <;> simp [hk]
  refine ⟨fun h => ?_, _, hdecodes, hsame ▸ hlists.decodes⟩
  obtain ⟨items, hitems⟩ := h.1.mp ⟨_, hdecodes⟩
  exact hitems.not_repeats hrepeats

end Archive

end Ethertest
