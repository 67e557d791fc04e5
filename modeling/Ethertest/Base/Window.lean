-- SUMMARY: Numbered sequences and the window of their last items.
import Mathlib.Data.List.Basic
import Mathlib.Data.List.Nodup
import Mathlib.Data.List.Range

/-!
# Windows of a numbered sequence

The items of a growing sequence carry consecutive numbers, and only the last of them are
kept. The lemmas say how a window grows, and what a reader finds in it after a number.
-/

namespace Window

variable {α : Type}

/-- The last items of a list. -/
def last (capacity : Nat) (l : List α) : List α := l.drop (l.length - capacity)

/-- The items in front of them. -/
def discarded (capacity : Nat) (l : List α) : List α := l.take (l.length - capacity)

theorem discarded_append_last (capacity : Nat) (l : List α) : discarded capacity l ++ last capacity l = l :=
  List.take_append_drop _ _

theorem length_last (capacity : Nat) (l : List α) : (last capacity l).length = min capacity l.length := by
  rw [last, List.length_drop]
  omega

theorem length_discarded (capacity : Nat) (l : List α) : (discarded capacity l).length = l.length - capacity := by
  rw [discarded, List.length_take]
  omega

/-- Growing the window is growing the sequence. -/
theorem last_append (capacity : Nat) (l l' : List α) :
    last capacity (last capacity l ++ l') = last capacity (l ++ l') := by
  have hlength := length_last capacity l
  simp only [last, List.length_append, List.length_drop] at *
  rw [List.drop_append, List.drop_append, List.drop_drop, List.length_drop]
  congr 2 <;> omega

theorem last_eq_nil {capacity : Nat} (hcapacity : 0 < capacity) {l : List α} : last capacity l = [] ↔ l = [] := by
  rw [← List.length_eq_zero_iff, length_last, ← List.length_eq_zero_iff (l := l)]
  omega

/-! ## Numbers -/

/-- The items carry consecutive numbers. -/
def Numbered (number : α → Nat) (first : Nat) (l : List α) : Prop :=
  l.map number = List.range' first l.length

variable {number : α → Nat} {first : Nat} {l l' : List α}

theorem numbered_nil : Numbered number first [] := rfl

theorem numbered_cons {x : α} : Numbered number first (x :: l) ↔ number x = first ∧ Numbered number (first + 1) l := by
  rw [Numbered, List.map_cons, List.length_cons, List.range'_succ, List.cons.injEq, Numbered]

theorem numbered_append :
    Numbered number first (l ++ l') ↔ Numbered number first l ∧ Numbered number (first + l.length) l' := by
  induction l generalizing first with
  | nil => simp [numbered_nil]
  | cons x l ih =>
    rw [List.cons_append, numbered_cons, numbered_cons, ih, List.length_cons, and_assoc,
      show first + 1 + l.length = first + (l.length + 1) by omega]

theorem Numbered.drop (h : Numbered number first l) (k : Nat) : Numbered number (first + k) (l.drop k) := by
  induction k generalizing first l with
  | zero => exact h
  | succ k ih =>
    cases l with
    | nil => exact numbered_nil
    | cons x l =>
      have := ih (numbered_cons.mp h).2
      rwa [show first + 1 + k = first + (k + 1) by omega] at this

theorem Numbered.take (h : Numbered number first l) (k : Nat) : Numbered number first (l.take k) := by
  rw [← List.take_append_drop k l] at h
  exact (numbered_append.mp h).1

/-- The number of an item is between the first and the next one. -/
theorem Numbered.bounds (h : Numbered number first l) {x : α} (hx : x ∈ l) :
    first ≤ number x ∧ number x < first + l.length := by
  have hmem : number x ∈ List.range' first l.length := h ▸ List.mem_map_of_mem hx
  rw [List.mem_range'_1] at hmem
  exact hmem

/-- A number in the range is the number of an item. -/
theorem Numbered.exists_of_lt (h : Numbered number first l) {k : Nat} (hlow : first ≤ k)
    (hhigh : k < first + l.length) :
    ∃ x ∈ l, number x = k := by
  have hmem : k ∈ l.map number := by
    rw [h, List.mem_range'_1]
    exact ⟨hlow, hhigh⟩
  exact List.mem_map.mp hmem

theorem Numbered.pairwise (h : Numbered number first l) : l.Pairwise fun x y => number x < number y := by
  rw [← List.pairwise_map (f := number) (R := (· < ·)), h]
  exact List.pairwise_lt_range'

/-- The number determines the item. -/
theorem Numbered.eq_of_number (h : Numbered number first l) {x y : α} (hx : x ∈ l) (hy : y ∈ l)
    (heq : number x = number y) : x = y := by
  have hpair : (l.map number).Pairwise (· < ·) := List.pairwise_map.mpr h.pairwise
  exact List.inj_on_of_nodup_map (hpair.imp Nat.ne_of_lt) hx hy heq

/-- Skipping up to a number is dropping a prefix of known length. -/
theorem Numbered.dropWhile_le (h : Numbered number first l) (k : Nat) :
    l.dropWhile (fun x => number x ≤ k) = l.drop (k + 1 - first) := by
  induction l generalizing first with
  | nil => simp
  | cons x l ih =>
    obtain ⟨hx, hl⟩ := numbered_cons.mp h
    by_cases hle : first ≤ k
    · rw [List.dropWhile_cons_of_pos (by simpa [hx] using hle), ih hl,
        show k + 1 - first = (k + 1 - (first + 1)) + 1 by omega, List.drop_succ_cons]
    · rw [List.dropWhile_cons_of_neg (by simpa [hx] using hle), show k + 1 - first = 0 by omega, List.drop_zero]

/-- And it leaves the items after that number. -/
theorem Numbered.dropWhile_le_eq_filter (h : Numbered number first l) (k : Nat) :
    l.dropWhile (fun x => number x ≤ k) = l.filter fun x => k < number x := by
  induction l generalizing first with
  | nil => rfl
  | cons x l ih =>
    obtain ⟨hx, hl⟩ := numbered_cons.mp h
    by_cases hle : first ≤ k
    · rw [List.dropWhile_cons_of_pos (by simpa [hx] using hle), ih hl,
        List.filter_cons_of_neg (by simpa [hx] using hle)]
    · rw [List.dropWhile_cons_of_neg (by simpa [hx] using hle), eq_comm, List.filter_eq_self]
      intro y hy
      have := (h.bounds hy).1
      simp only [decide_eq_true_eq]
      omega

/-- The items after a number that is at most one below the first are numbered on from it. -/
theorem Numbered.filter_lt (h : Numbered number first l) {k : Nat} (hk : first ≤ k + 1) :
    Numbered number (k + 1) (l.filter fun x => k < number x) := by
  have hdrop := h.drop (k + 1 - first)
  rwa [Nat.add_sub_cancel' hk, ← h.dropWhile_le k, h.dropWhile_le_eq_filter] at hdrop

end Window
