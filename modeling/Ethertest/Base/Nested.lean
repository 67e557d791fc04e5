-- SUMMARY: Stores of stores: readings under two keys, and stores that hold no empty inner store.
import Ethertest.Base.Store

/-!
# Stores of stores

A table that is indexed by two keys is kept as a store whose values are stores. An inner
store that becomes empty is taken out, so that the outer keys are those that have entries.
-/

namespace Store

variable {K L V : Type} [Ord K] [Std.TransOrd K] [Std.LawfulEqOrd K] [DecidableEq K]
  [Ord L] [Std.TransOrd L] [Std.LawfulEqOrd L] [DecidableEq L]

/-- The value under two keys. -/
def get₂ (s : Store K (Store L V)) (a : K) (b : L) : Option V := s[a]?.bind (·[b]?)

/-- Put a value under two keys. -/
def insert₂ (s : Store K (Store L V)) (a : K) (b : L) (v : V) : Store K (Store L V) :=
  s.insert a ((s[a]?.getD ∅).insert b v)

/-- Take the value under two keys out, with an inner store that becomes empty. -/
def erase₂ (s : Store K (Store L V)) (a : K) (b : L) : Store K (Store L V) :=
  let left := (s[a]?.getD ∅).erase b
  if left.isEmpty then s.erase a else s.insert a left

/-- No inner store is empty. -/
def Pruned (s : Store K (Store L V)) : Prop := ∀ (a : K) (m : Store L V), s[a]? = some m → m.isEmpty = false

variable {s : Store K (Store L V)} {a a' : K} {b b' : L} {v : V}

omit [Std.LawfulEqOrd K] [DecidableEq K] [Std.LawfulEqOrd L] [DecidableEq L] in
theorem get_inner (b : L) : (s[a]?.getD ∅)[b]? = s.get₂ a b := by
  rw [get₂]
  cases s[a]? with
  | none => exact Std.ExtTreeMap.getElem?_empty
  | some m => rfl

theorem get₂_insert₂ : (s.insert₂ a b v).get₂ a' b' = if a' = a ∧ b' = b then some v else s.get₂ a' b' := by
  rw [get₂, insert₂, get_insert]
  by_cases ha : a' = a
  · subst ha
    rw [if_pos rfl, Option.bind_some, get_insert, get_inner]
    simp
  · rw [if_neg ha, if_neg fun h => ha h.1]
    rfl

theorem get₂_erase₂ : (s.erase₂ a b).get₂ a' b' = if a' = a ∧ b' = b then none else s.get₂ a' b' := by
  have hleft : ((s[a]?.getD ∅).erase b)[b']? = if b' = b then none else s.get₂ a b' := by
    rw [get_erase, get_inner]
  simp only [get₂, erase₂]
  by_cases hempty : ((s[a]?.getD ∅).erase b).isEmpty
  · rw [if_pos hempty, get_erase]
    by_cases ha : a' = a
    · rw [Std.ExtTreeMap.isEmpty_iff.mp hempty, Std.ExtTreeMap.getElem?_empty] at hleft
      subst ha
      simpa [get₂] using hleft
    · rw [if_neg ha, if_neg fun h => ha h.1]
  · rw [if_neg hempty, get_insert]
    by_cases ha : a' = a
    · subst ha
      simpa [get₂] using hleft
    · rw [if_neg ha, if_neg fun h => ha h.1]

theorem Pruned.insert₂ (h : s.Pruned) : (s.insert₂ a b v).Pruned := by
  intro a' m hm
  rw [Store.insert₂, get_insert] at hm
  split at hm
  · rw [← Option.some.inj hm]
    refine Bool.eq_false_iff.mpr fun hempty => ?_
    have hget := get_insert (s[a]?.getD ∅) b b v
    rw [Std.ExtTreeMap.isEmpty_iff.mp hempty, Std.ExtTreeMap.getElem?_empty, if_pos rfl] at hget
    cases hget
  · exact h a' m hm

/-- A value that is put where one was taken out replaces it. -/
theorem insert₂_erase₂ : (s.erase₂ a b).insert₂ a b v = s.insert₂ a b v := by
  have hinner : ((s.erase₂ a b)[a]?.getD ∅).insert b v = (s[a]?.getD ∅).insert b v := by
    refine ext_get fun b' => ?_
    rw [get_insert, get_insert, get_inner, get_inner, get₂_erase₂]
    by_cases hb : b' = b <;> simp [hb]
  refine ext_get fun a' => ?_
  rw [insert₂, insert₂, hinner, get_insert, get_insert]
  by_cases ha : a' = a
  · rw [if_pos ha, if_pos ha]
  · rw [if_neg ha, if_neg ha, erase₂]
    split
    · rw [get_erase, if_neg ha]
    · rw [get_insert, if_neg ha]

omit [Std.LawfulEqOrd L] [DecidableEq L] in
theorem Pruned.erase₂ (h : s.Pruned) : (s.erase₂ a b).Pruned := by
  intro a' m hm
  simp only [Store.erase₂] at hm
  split at hm
  · rw [get_erase] at hm
    split at hm
    · cases hm
    · exact h a' m hm
  · next hleft =>
    rw [get_insert] at hm
    split at hm
    · rw [← Option.some.inj hm]
      exact Bool.not_eq_true _ ▸ hleft
    · exact h a' m hm

end Store
