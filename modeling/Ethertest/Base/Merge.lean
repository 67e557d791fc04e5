-- SUMMARY: Greedy merges of streams: the least element of a list, and merges that take the least of the next elements.
import Mathlib.Data.List.Count
import Mathlib.Data.List.Perm.Basic
import Mathlib.Logic.Function.Basic

/-!
# Greedy merges

Several streams are merged into one list. Every round takes the least of the elements that
come next in their streams. If the order is total on them, it does not matter in which
order the streams are looked at. A merge takes from every stream the elements in front of
its first gap, each once and in the order of the stream.
-/

namespace Merge

/-! ## The least element -/

section Least

variable {α : Type} (before : α → α → Bool)

/-- A strict total order on the elements that satisfy `P`. -/
structure StrictOn (P : α → Prop) : Prop where
  asymm : ∀ {x y}, P x → P y → before x y = true → before y x = false
  trans : ∀ {x y z}, P x → P y → P z → before x y = true → before y z = true → before x z = true
  total : ∀ {x y}, P x → P y → x ≠ y → before x y = true ∨ before y x = true

/-- Keep the better of two elements. -/
def better (best : Option α) (x : α) : Option α :=
  match best with
  | none => some x
  | some y => if before x y then some x else some y

/-- The least element of a list, found in one pass. -/
def least (items : List α) : Option α := items.foldl (better before) none

variable {before} {P : α → Prop}

/-- What a pass over a list finds, from the best element so far. -/
theorem foldl_better (h : StrictOn before P) {items : List α} {y : α} (hy : P y) (hitems : ∀ x ∈ items, P x) :
    ∃ z, items.foldl (better before) (some y) = some z ∧ z ∈ y :: items ∧
      ∀ w ∈ y :: items, w = z ∨ before z w = true := by
  induction items generalizing y with
  | nil => exact ⟨y, rfl, List.mem_cons_self, fun w hw => .inl (List.mem_singleton.mp hw)⟩
  | cons x items ih =>
    obtain ⟨hx, hrest⟩ := List.forall_mem_cons.mp hitems
    -- the winner of `x` and `y` goes on, and is at least as good as the loser
    obtain ⟨y', hy', hPy', hmem', hx', hy''⟩ : ∃ y', better before (some y) x = some y' ∧ P y' ∧
        (y' = x ∨ y' = y) ∧ (x = y' ∨ before y' x = true) ∧ (y = y' ∨ before y' y = true) := by
      by_cases hxy : before x y = true
      · exact ⟨x, by simp [better, hxy], hx, .inl rfl, .inl rfl, .inr hxy⟩
      · refine ⟨y, by simp [better, hxy], hy, .inr rfl, ?_, .inl rfl⟩
        by_cases heq : x = y
        · exact .inl heq
        · exact .inr ((h.total hx hy heq).resolve_left hxy)
    obtain ⟨z, hz, hmem, hleast⟩ := ih hPy' hrest
    have hPz : P z := by
      rcases List.mem_cons.mp hmem with rfl | hmem
      · exact hPy'
      · exact hrest z hmem
    have hthrough {w : α} (hw : P w) (hwin : w = y' ∨ before y' w = true) : w = z ∨ before z w = true := by
      rcases hleast y' List.mem_cons_self with rfl | hzy
      · exact hwin
      · rcases hwin with rfl | hwin
        · exact .inr hzy
        · exact .inr (h.trans hPz hPy' hw hzy hwin)
    refine ⟨z, by rw [List.foldl_cons, hy', hz], ?_, ?_⟩
    · rcases List.mem_cons.mp hmem with rfl | hmem
      · rcases hmem' with rfl | rfl <;> simp
      · exact List.mem_cons_of_mem _ (List.mem_cons_of_mem _ hmem)
    · intro w hw
      rcases List.mem_cons.mp hw with rfl | hw
      · exact hthrough hy hy''
      · rcases List.mem_cons.mp hw with rfl | hw
        · exact hthrough hx hx'
        · exact hleast w (List.mem_cons_of_mem _ hw)

theorem least_eq_none {items : List α} : least before items = none ↔ items = [] := by
  have hsome (y : α) (l : List α) : l.foldl (better before) (some y) ≠ none := by
    induction l generalizing y with
    | nil => simp
    | cons x l ih =>
      rw [List.foldl_cons, better]
      split <;> exact ih _
  cases items with
  | nil => simp [least]
  | cons x items => simpa [least, better] using hsome x items

theorem mem_of_least {items : List α} {z : α} (h : least before items = some z) : z ∈ items := by
  have hfound (y : α) (l : List α) (h : l.foldl (better before) (some y) = some z) : z ∈ y :: l := by
    induction l generalizing y with
    | nil => simpa using h.symm
    | cons x l ih =>
      rw [List.foldl_cons, better] at h
      split at h
      · exact List.mem_cons_of_mem _ (ih x h)
      · rcases List.mem_cons.mp (ih y h) with rfl | hmem
        · exact List.mem_cons_self
        · exact List.mem_cons_of_mem _ (List.mem_cons_of_mem _ hmem)
  cases items with
  | nil => cases h
  | cons x items => exact hfound x items h

theorem least_eq_some (h : StrictOn before P) {items : List α} (hitems : ∀ x ∈ items, P x) {z : α} :
    least before items = some z ↔ z ∈ items ∧ ∀ w ∈ items, w = z ∨ before z w = true := by
  cases items with
  | nil => simp [least]
  | cons x items =>
    obtain ⟨hx, hrest⟩ := List.forall_mem_cons.mp hitems
    obtain ⟨z', hz', hmem', hleast'⟩ := foldl_better h hx hrest
    have hfound : least before (x :: items) = some z' := hz'
    rw [hfound, Option.some.injEq]
    constructor
    · rintro rfl
      exact ⟨hmem', hleast'⟩
    · rintro ⟨hmem, hleast⟩
      rcases hleast' z hmem with rfl | hlt
      · rfl
      · rcases hleast z' hmem' with rfl | hgt
        · rfl
        · rw [h.asymm (hitems z' hmem') (hitems z hmem) hlt] at hgt
          cases hgt

end Least

/-! ## Merges -/

section Merges

variable {ι α : Type} [DecidableEq ι] (stream : ι → Nat → Option α) (before : α → α → Bool)

/-- The positions after one more element was taken from a stream. -/
def advance (pos : ι → Nat) (i : ι) : ι → Nat := Function.update pos i (pos i + 1)

/-- A merge of the streams from the given positions, as the list of what it takes. -/
inductive Merges : (ι → Nat) → List (ι × α) → Prop where
  | done {pos : ι → Nat} (h : ∀ i, stream i (pos i) = none) : Merges pos []
  | take {pos : ι → Nat} {i : ι} {x : α} {rest : List (ι × α)} (next : stream i (pos i) = some x)
      (least : ∀ j y, j ≠ i → stream j (pos j) = some y → before x y = true) (merge : Merges (advance pos i) rest) :
      Merges pos ((i, x) :: rest)

/-- The element at offset `k` from a position, if the stream has no gap up to it. -/
def Reaches (pos : ι → Nat) (i : ι) (k : Nat) (x : α) : Prop :=
  stream i (pos i + k) = some x ∧ ∀ j < k, (stream i (pos i + j)).isSome

/-- How many elements were taken from a stream. -/
def taken (trace : List (ι × α)) (i : ι) : Nat := trace.countP fun item => item.1 = i

variable {stream before} {pos : ι → Nat} {trace : List (ι × α)} {i : ι} {k : Nat} {x : α}

@[simp] theorem taken_nil : taken ([] : List (ι × α)) i = 0 := rfl

theorem taken_cons (item : ι × α) : taken (item :: trace) i = taken trace i + if item.1 = i then 1 else 0 := by
  simp [taken, List.countP_cons]

theorem taken_append (trace' : List (ι × α)) : taken (trace ++ trace') i = taken trace i + taken trace' i :=
  List.countP_append

theorem advance_add_taken {j : ι} : advance pos i j + taken trace j = pos j + taken ((i, x) :: trace) j := by
  rw [taken_cons, advance]
  by_cases h : i = j
  · subst h
    simp
    omega
  · rw [Function.update_of_ne (Ne.symm h), if_neg h, Nat.add_zero]

namespace Merges

/-- What follows a front of a merge is a merge from the positions that the front leads to. -/
theorem after {rest : List (ι × α)} (h : Merges stream before pos (trace ++ rest)) :
    Merges stream before (fun j => pos j + taken trace j) rest := by
  induction trace generalizing pos with
  | nil => simpa using h
  | cons item trace ih =>
    cases h with
    | @take _ i x _ next least merge =>
      have hrest := ih merge
      simp only [advance_add_taken (x := x)] at hrest
      exact hrest

/-- What a merge takes is the next element of its stream and the least of the next ones. -/
theorem at_position {front rest : List (ι × α)} (h : Merges stream before pos (front ++ (i, x) :: rest)) :
    stream i (pos i + taken front i) = some x ∧
      ∀ j y, j ≠ i → stream j (pos j + taken front j) = some y → before x y = true := by
  cases h.after with
  | take next least merge => exact ⟨next, least⟩

/-- A merge takes every element in front of the first gap of its stream. -/
theorem exists_of_reaches (h : Merges stream before pos trace) (hx : Reaches stream pos i k x) :
    ∃ front rest, trace = front ++ (i, x) :: rest ∧ taken front i = k := by
  induction h generalizing k with
  | @done pos hnone =>
    have hgap := hnone i
    obtain ⟨hk, hbelow⟩ := hx
    cases k with
    | zero =>
      rw [Nat.add_zero, hgap] at hk
      cases hk
    | succ k =>
      have := hbelow 0 (Nat.succ_pos k)
      rw [Nat.add_zero, hgap] at this
      cases this
  | @take pos i' x' rest next least merge ih =>
    by_cases hi : i' = i
    · subst hi
      cases k with
      | zero =>
        rw [Reaches, Nat.add_zero, next] at hx
        obtain rfl := Option.some.inj hx.1
        exact ⟨[], rest, rfl, rfl⟩
      | succ k =>
        obtain ⟨front, back, rfl, hfront⟩ : ∃ front back, rest = front ++ (i', x) :: back ∧ taken front i' = k := by
          refine ih ⟨?_, fun j hj => ?_⟩
          · rw [advance, Function.update_self, Nat.add_assoc, Nat.add_comm 1 k]
            exact hx.1
          · rw [advance, Function.update_self, Nat.add_assoc, Nat.add_comm 1 j]
            exact hx.2 (j + 1) (Nat.succ_lt_succ hj)
        exact ⟨(i', x') :: front, back, rfl, by rw [taken_cons, if_pos rfl, hfront]⟩
    · have hsame : advance pos i' i = pos i := Function.update_of_ne (Ne.symm hi) _ _
      obtain ⟨front, back, rfl, hfront⟩ := ih (k := k) (by rwa [Reaches, hsame])
      exact ⟨(i', x') :: front, back, rfl, by rw [taken_cons, if_neg hi, hfront, Nat.add_zero]⟩

/-- A merge takes nothing behind a gap. -/
theorem reaches_of_mem {front rest : List (ι × α)} (h : Merges stream before pos (front ++ (i, x) :: rest)) :
    Reaches stream pos i (taken front i) x := by
  induction front generalizing pos with
  | nil =>
    cases h with
    | take next least merge => exact ⟨next, fun j hj => absurd hj (Nat.not_lt_zero j)⟩
  | cons item front ih =>
    cases h with
    | @take _ i' x' _ next least merge =>
      obtain ⟨hget, hbelow⟩ := ih merge
      by_cases hi : i' = i
      · subst hi
        rw [taken_cons, if_pos rfl]
        rw [advance, Function.update_self] at hget
        refine ⟨by rw [← hget]; congr 1; omega, fun j hj => ?_⟩
        cases j with
        | zero => rw [Nat.add_zero, next]; rfl
        | succ j =>
          have := hbelow j (by omega)
          rw [advance, Function.update_self] at this
          rwa [Nat.add_comm j 1, ← Nat.add_assoc]
      · have hsame : advance pos i' i = pos i := Function.update_of_ne (Ne.symm hi) _ _
        rw [taken_cons, if_neg hi, Nat.add_zero]
        rw [hsame] at hget
        exact ⟨hget, fun j hj => by simpa only [hsame] using hbelow j hj⟩

/-- Two elements of one stream are taken in the order of the stream. -/
theorem pairwise (h : Merges stream before pos trace) : trace.Pairwise fun s t =>
    s.1 = t.1 → ∃ a b, a < b ∧ stream s.1 a = some s.2 ∧ stream t.1 b = some t.2 := by
  induction h with
  | done => exact List.Pairwise.nil
  | @take pos i x rest next least merge ih =>
    refine List.pairwise_cons.mpr ⟨?_, ih⟩
    rintro ⟨j, y⟩ hmem rfl
    obtain ⟨front, back, rfl⟩ := List.append_of_mem hmem
    obtain ⟨hy, -⟩ := merge.reaches_of_mem
    rw [advance, Function.update_self] at hy
    exact ⟨_, _, by omega, next, hy⟩

/-- There is at most one merge. -/
theorem unique (hasymm : ∀ {i j a b x y}, stream i a = some x → stream j b = some y → before x y = true →
    before y x = false) {trace' : List (ι × α)} (h : Merges stream before pos trace)
    (h' : Merges stream before pos trace') : trace = trace' := by
  induction h generalizing trace' with
  | done hnone =>
    cases h' with
    | done => rfl
    | take next => rw [hnone] at next; cases next
  | @take pos i x rest next least merge ih =>
    cases h' with
    | done hnone => rw [hnone] at next; cases next
    | @take _ i' x' rest' next' least' merge' =>
      obtain rfl : i = i' := by
        by_contra hne
        have hgt := least' i x hne next
        rw [hasymm next next' (least i' x' (Ne.symm hne) next')] at hgt
        cases hgt
      obtain rfl : x = x' := Option.some.inj (next.symm.trans next')
      rw [ih merge']

end Merges

/-- Everything that was taken from a stream stands somewhere in the list. -/
theorem exists_of_lt_taken (h : k < taken trace i) :
    ∃ front x rest, trace = front ++ (i, x) :: rest ∧ taken front i = k := by
  induction trace generalizing k with
  | nil => cases h
  | cons item trace ih =>
    obtain ⟨j, y⟩ := item
    rw [taken_cons] at h
    by_cases hj : j = i
    · subst hj
      cases k with
      | zero => exact ⟨[], y, trace, rfl, rfl⟩
      | succ k =>
        obtain ⟨front, x, rest, rfl, hfront⟩ := ih (k := k) (by simp at h; omega)
        exact ⟨(j, y) :: front, x, rest, rfl, by rw [taken_cons, if_pos rfl, hfront]⟩
    · rw [if_neg hj, Nat.add_zero] at h
      obtain ⟨front, x, rest, rfl, hfront⟩ := ih h
      exact ⟨(j, y) :: front, x, rest, rfl, by rw [taken_cons, if_neg hj, hfront, Nat.add_zero]⟩

end Merges

end Merge
