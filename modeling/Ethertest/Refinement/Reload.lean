-- SUMMARY: Reading a family of database entries back into an index.
import Ethertest.Refinement.Mirror

/-!
# Reading indexes back

The loaders of a restarting node go over all entries of the database. Each picks the keys
of one family and decodes their values. If the family holds exactly the entries of an
index, the index comes back.
-/

namespace Ethertest

/-- One round of `loadIndex`. -/
def readEntry {K V : Type} [Ord K] [Std.TransOrd K] (select : Key → Option K) (decode : K → Value → Except Error V)
    (index : Store K V) (entry : Key × Value) : Except Error (Store K V) :=
  match select entry.1 with
  | none => .ok index
  | some k => do
    let v ← decode k entry.2
    .ok (index.insert k v)

section LoadIndex

variable {K V : Type} [Ord K] [Std.TransOrd K] {select : Key → Option K} {decode : K → Value → Except Error V}

theorem loadIndex_eq_foldlM (db : Db) :
    loadIndex select decode db = db.entries.toList.foldlM (readEntry select decode) ∅ := rfl

private theorem readEntry_none {index : Store K V} {entry : Key × Value} (h : select entry.1 = none) :
    readEntry select decode index entry = .ok index := by
  rw [readEntry, h]

private theorem readEntry_some {index : Store K V} {entry : Key × Value} {a : K} {v : V} (h : select entry.1 = some a)
    (hdecode : decode a entry.2 = .ok v) : readEntry select decode index entry = .ok (index.insert a v) := by
  simp only [readEntry, h, hdecode]
  rfl

/-- A family whose values all decode loads as some index. -/
theorem loadIndex_ok {db : Db} (h : ∀ k v, db.get k = some v → ∀ a, select k = some a → ∃ w, decode a v = .ok w) :
    ∃ s, loadIndex select decode db = .ok s := by
  have hfold (entries : List (Key × Value)) (hmem : ∀ entry ∈ entries, db.get entry.1 = some entry.2)
      (acc : Store K V) : ∃ acc', entries.foldlM (readEntry select decode) acc = .ok acc' := by
    induction entries generalizing acc with
    | nil => exact ⟨acc, rfl⟩
    | cons entry entries ih =>
      have hrest := ih fun e he => hmem e (List.mem_cons_of_mem _ he)
      rw [List.foldlM_cons]
      cases hselect : select entry.1 with
      | none =>
        rw [readEntry_none hselect]
        exact hrest acc
      | some a =>
        obtain ⟨w, hw⟩ := h entry.1 entry.2 (hmem entry List.mem_cons_self) a hselect
        rw [readEntry_some hselect hw]
        exact hrest (acc.insert a w)
  exact hfold _ (fun entry he => Store.mem_toList.mp he) ∅

variable [Std.LawfulEqOrd K] [DecidableEq K] {s : Store K V}

/-- Reading a list of entries that all belong to an index: the keys that are picked get
the values of the index, the others stay. -/
theorem foldlM_loadIndex {entries : List (Key × Value)} (acc : Store K V)
    (h : ∀ entry ∈ entries, ∀ a, select entry.1 = some a → ∃ v, s[a]? = some v ∧ decode a entry.2 = .ok v) :
    ∃ acc', entries.foldlM (readEntry select decode) acc = .ok acc' ∧
      ∀ a, ((∃ entry ∈ entries, select entry.1 = some a) → acc'[a]? = s[a]?) ∧
        ((¬ ∃ entry ∈ entries, select entry.1 = some a) → acc'[a]? = acc[a]?) := by
  induction entries generalizing acc with
  | nil => exact ⟨acc, rfl, fun a => ⟨by simp, fun _ => rfl⟩⟩
  | cons entry entries ih =>
    have hrest : ∀ e ∈ entries, ∀ a, select e.1 = some a → ∃ v, s[a]? = some v ∧ decode a e.2 = .ok v :=
      fun e he => h e (List.mem_cons_of_mem _ he)
    rw [List.foldlM_cons]
    cases hselect : select entry.1 with
    | none =>
      obtain ⟨acc', hacc', hget⟩ := ih acc hrest
      refine ⟨acc', by rw [readEntry_none hselect]; exact hacc', fun a => ?_⟩
      simpa [hselect] using hget a
    | some k =>
      obtain ⟨v, hv, hdecode⟩ := h entry List.mem_cons_self k hselect
      obtain ⟨acc', hacc', hget⟩ := ih (acc.insert k v) hrest
      refine ⟨acc', by rw [readEntry_some hselect hdecode]; exact hacc', fun a => ?_⟩
      obtain ⟨hin, hout⟩ := hget a
      by_cases hlater : ∃ e ∈ entries, select e.1 = some a
      · exact ⟨fun _ => hin hlater, fun hnot => absurd hlater fun ⟨e, he, hea⟩ =>
          hnot ⟨e, List.mem_cons_of_mem _ he, hea⟩⟩
      · rw [hout hlater, Store.get_insert]
        by_cases ha : a = k
        · subst ha
          simp [hselect, hv]
        · have hnone : ¬ ∃ e ∈ entry :: entries, select e.1 = some a := by
            rintro ⟨e, he, hea⟩
            rcases List.mem_cons.mp he with rfl | he
            · exact ha (Option.some.inj (hea.symm.trans hselect))
            · exact hlater ⟨e, he, hea⟩
          exact ⟨fun hsome => absurd hsome hnone, fun _ => if_neg ha⟩

/-- A family that holds the entries of an index loads as that index. -/
theorem loadIndex_eq {key : K → Key} {encode : V → Value} {db : Db}
    (hselect : ∀ k a, select k = some a ↔ k = key a) (hdb : ∀ a, db.get (key a) = (s[a]?).map encode)
    (hdecode : ∀ a v, s[a]? = some v → decode a (encode v) = .ok v) : loadIndex select decode db = .ok s := by
  have hentries : ∀ entry ∈ db.entries.toList, ∀ a, select entry.1 = some a →
      ∃ v, s[a]? = some v ∧ decode a entry.2 = .ok v := by
    rintro ⟨k, value⟩ hmem a hk
    obtain rfl := (hselect k a).mp hk
    have hget : db.get (key a) = some value := Store.mem_toList.mp hmem
    rw [hdb, Option.map_eq_some_iff] at hget
    obtain ⟨v, hv, rfl⟩ := hget
    exact ⟨v, hv, hdecode a v hv⟩
  obtain ⟨acc, hacc, hget⟩ := foldlM_loadIndex ∅ hentries
  have hsame : acc = s := by
    refine Store.ext_get fun a => ?_
    by_cases hsome : ∃ entry ∈ db.entries.toList, select entry.1 = some a
    · exact (hget a).1 hsome
    · rw [(hget a).2 hsome]
      cases hs : s[a]? with
      | none => simp
      | some v =>
        have hstored : db.get (key a) = some (encode v) := by rw [hdb, hs, Option.map_some]
        exact absurd ⟨(key a, encode v), Store.mem_toList.mpr hstored, (hselect _ _).mpr rfl⟩ hsome
  rw [loadIndex_eq_foldlM, hacc, hsame]

end LoadIndex

end Ethertest
