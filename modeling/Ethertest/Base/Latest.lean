-- SUMMARY: The last element at or below a bound, in a list that decreases.
import Mathlib.Data.List.Basic
import Mathlib.Order.Nat

/-!
# The latest element at or below a bound

A list of elements with strictly decreasing keys, newest first. The latest element whose
key is at most a bound is the first one that is found. It moves up with the bound, and
newer elements above the bound do not change it.
-/

namespace Ethertest

variable {α : Type} (key : α → Nat)

/-- The newest first, keys strictly decrease. -/
def Descending (line : List α) : Prop := line.Pairwise fun x y => key y < key x

/-- The latest element with a key of at most `bound`. -/
def latest (line : List α) (bound : Nat) : Option α := line.find? fun a => key a ≤ bound

variable {key} {line : List α} {bound bound' : Nat} {a b : α}

namespace Descending

/-- An element is determined by its key. -/
theorem eq_of_key (h : Descending key line) (ha : a ∈ line) (hb : b ∈ line) (hkey : key a = key b) : a = b := by
  induction line with
  | nil => cases ha
  | cons x line ih =>
    obtain ⟨hx, hline⟩ := List.pairwise_cons.mp h
    rcases List.mem_cons.mp ha with rfl | ha'
    · rcases List.mem_cons.mp hb with rfl | hb'
      · rfl
      · exact absurd hkey (hx b hb').ne'
    · rcases List.mem_cons.mp hb with rfl | hb'
      · exact absurd hkey (hx a ha').ne
      · exact ih hline ha' hb'

/-- Two keys that decrease along a list order its elements alike. -/
theorem le_iff {key' : α → Nat} (h : Descending key line) (h' : Descending key' line) (ha : a ∈ line)
    (hb : b ∈ line) : key a ≤ key b ↔ key' a ≤ key' b := by
  induction line with
  | nil => cases ha
  | cons x line ih =>
    obtain ⟨hx, hline⟩ := List.pairwise_cons.mp h
    obtain ⟨hx', hline'⟩ := List.pairwise_cons.mp h'
    rcases List.mem_cons.mp ha with rfl | ha'
    · rcases List.mem_cons.mp hb with rfl | hb'
      · simp
      · exact iff_of_false (hx b hb').not_ge (hx' b hb').not_ge
    · rcases List.mem_cons.mp hb with rfl | hb'
      · exact iff_of_true (hx a ha').le (hx' a ha').le
      · exact ih hline hline' ha' hb'

end Descending

theorem latest_cons_of_lt (h : bound < key a) : latest key (a :: line) bound = latest key line bound := by
  rw [latest, List.find?_cons_of_neg (by simpa using h)]
  rfl

theorem mem_of_latest (h : latest key line bound = some a) : a ∈ line ∧ key a ≤ bound :=
  ⟨List.mem_of_find?_eq_some h, by simpa using List.find?_some h⟩

/-- There is a latest element if some key is small enough. -/
theorem exists_latest (hb : b ∈ line) (hkey : key b ≤ bound) : ∃ a, latest key line bound = some a := by
  cases h : latest key line bound with
  | some a => exact ⟨a, rfl⟩
  | none => exact absurd hkey (by simpa using List.find?_eq_none.mp h b hb)

/-- Nothing at or below the bound is later. -/
theorem le_latest (hline : Descending key line) (h : latest key line bound = some a) (hb : b ∈ line)
    (hkey : key b ≤ bound) : key b ≤ key a := by
  induction line with
  | nil => cases hb
  | cons x line ih =>
    obtain ⟨hx, hline⟩ := List.pairwise_cons.mp hline
    by_cases hfirst : key x ≤ bound
    · rw [latest, List.find?_cons_of_pos (by simpa using hfirst)] at h
      obtain rfl := Option.some.inj h
      rcases List.mem_cons.mp hb with rfl | hb
      · exact le_rfl
      · exact (hx b hb).le
    · rw [latest_cons_of_lt (by omega)] at h
      rcases List.mem_cons.mp hb with rfl | hb
      · exact absurd hkey hfirst
      · exact ih hline h hb

theorem latest_eq_some (hline : Descending key line) :
    latest key line bound = some a ↔ a ∈ line ∧ key a ≤ bound ∧ ∀ b ∈ line, key b ≤ bound → key b ≤ key a := by
  constructor
  · intro h
    exact ⟨(mem_of_latest h).1, (mem_of_latest h).2, fun _ => le_latest hline h⟩
  · rintro ⟨ha, hkey, hlast⟩
    obtain ⟨a', h⟩ := exists_latest ha hkey
    obtain ⟨ha', hkey'⟩ := mem_of_latest h
    have hsame := Nat.le_antisymm (hlast a' ha' hkey') (le_latest hline h ha hkey)
    rw [h, hline.eq_of_key ha' ha hsame]

/-- A higher bound gives a later element. -/
theorem latest_mono (hline : Descending key line) (h : latest key line bound = some a)
    (h' : latest key line bound' = some b) (hle : bound ≤ bound') : key a ≤ key b :=
  le_latest hline h' (mem_of_latest h).1 ((mem_of_latest h).2.trans hle)

end Ethertest
