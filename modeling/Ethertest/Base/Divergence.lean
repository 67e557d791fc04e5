-- SUMMARY: Ancestors as the closure of parent links, and the walk of two nodes to their lowest common ancestor.
import Ethertest.Base.Ancestry

/-!
# Divergence

In a rooted tree the ancestors of a node are what its parent links lead to. The walk of
`Ancestry.divergentPaths` ends at the lowest common ancestor of two members, and what it passes
are the chains of links down to it. The root of the tree may have any number: the walk depends
only on how far a node is from the root.
-/

namespace Ancestry

variable {α : Type}

section Links

variable (parent : α → Option α) (root : α)

/-- One step up, inside the tree. -/
def Link (b p : α) : Prop := b ≠ root ∧ parent b = some p

/-- The first node is the second one or one that its links lead to. -/
def Ancestor (a b : α) : Prop := Relation.ReflTransGen (Link parent root) b a

/-- The nodes of a chain of links, first to last, and where the last one leads. -/
inductive Path : List α → α → α → Prop
  | nil (a : α) : Path [] a a
  | cons {a p c : α} {path : List α} : Link parent root a p → Path path p c → Path (a :: path) a c

/-- A common ancestor below all others. -/
structure LowestCommonAncestor (a b c : α) : Prop where
  left : Ancestor parent root c a
  right : Ancestor parent root c b
  lowest : ∀ d, Ancestor parent root d a → Ancestor parent root d b → Ancestor parent root d c

end Links

section Walks

variable {parent : α → Option α} {number : α → Nat} {bound : Nat}

/-- Steps that are left over do not change where a walk ends. -/
theorem lower_mono {k k' : Nat} {b : α} {r : List α × α} (hk : k ≤ k') (h : lower parent number bound k b = some r) :
    lower parent number bound k' b = some r := by
  induction k generalizing k' b r with
  | zero =>
    have hdone : ¬ bound < number b := by
      intro hlt
      simp [lower, hlt] at h
    cases k' <;> simpa [lower, hdone] using h
  | succ k ih =>
    obtain ⟨k', rfl⟩ : ∃ j, k' = j + 1 := ⟨k' - 1, by omega⟩
    by_cases hlt : bound < number b
    · simp only [lower, hlt, if_true, Option.bind_eq_bind, Option.bind_eq_some_iff] at h ⊢
      obtain ⟨p, hp, r', hr', hr⟩ := h
      exact ⟨p, hp, r', ih (by omega) hr', hr⟩
    · simpa [lower, hlt] using h

theorem meet_mono {same : α → α → Bool} {k k' : Nat} {a b : α} {r : List α × List α} (hk : k ≤ k')
    (h : meet parent same k a b = some r) : meet parent same k' a b = some r := by
  induction k generalizing k' a b r with
  | zero =>
    have hsame : same a b = true := by
      by_contra hsame
      simp [meet, hsame] at h
    cases k' <;> simpa [meet, hsame] using h
  | succ k ih =>
    obtain ⟨k', rfl⟩ : ∃ j, k' = j + 1 := ⟨k' - 1, by omega⟩
    by_cases hsame : same a b = true
    · simpa [meet, hsame] using h
    · simp only [meet, hsame, Bool.false_eq_true, if_false, Option.bind_eq_bind, Option.bind_eq_some_iff] at h ⊢
      obtain ⟨pa, hpa, pb, hpb, r', hr', hr⟩ := h
      exact ⟨pa, hpa, pb, hpb, r', ih (by omega) hr', hr⟩

end Walks

/-- The members of a set form a tree whose root has any number. -/
structure RootedTree (parent : α → Option α) (number : α → Nat) (mem : α → Prop) (root : α) : Prop where
  root_mem : mem root
  parent_of_ne : ∀ b, mem b → b ≠ root → ∃ p, parent b = some p ∧ mem p ∧ number b = number p + 1

variable {parent : α → Option α} {number : α → Nat} {mem : α → Prop} {root : α}

namespace Tree

variable (T : Tree parent number mem root)
include T

theorem mem_line_iff {a b : α} (hb : mem b) : a ∈ line parent number b ↔ Ancestor parent root a b := by
  induction b, hb using T.induct with
  | hroot =>
    rw [T.line_root, List.mem_singleton]
    refine ⟨fun h => h ▸ .refl, fun h => ?_⟩
    rcases Relation.ReflTransGen.cases_head h with rfl | ⟨p, hlink, -⟩
    · rfl
    · exact absurd rfl hlink.1
  | hchild b p _ hne hp _ hnum ih =>
    rw [line_child hp hnum, List.mem_cons, ih]
    constructor
    · rintro (rfl | h)
      · exact .refl
      · exact .head ⟨hne, hp⟩ h
    · intro h
      rcases Relation.ReflTransGen.cases_head h with rfl | ⟨q, hlink, h⟩
      · exact .inl rfl
      · obtain rfl : p = q := Option.some.inj (hp.symm.trans hlink.2)
        exact .inr h

/-- What separates a line from one inside it is a chain of links. -/
theorem path_of_line {path : List α} {a c : α} (ha : mem a)
    (h : line parent number a = path ++ line parent number c) : Path parent root path a c := by
  induction path generalizing a with
  | nil =>
    have hac : ascend parent ([] : List α).length a = some c := T.ascend_of_line ha h
    obtain rfl : a = c := Option.some.inj hac
    exact .nil a
  | cons x path ih =>
    obtain ⟨rest, hrest⟩ := line_eq_cons parent number c
    have hne : a ≠ root := by
      rintro rfl
      rw [T.line_root, hrest] at h
      simp at h
    obtain ⟨p, hp, hpm, hnum⟩ := T.parent_of_ne a ha hne
    rw [line_child hp hnum, List.cons_append, List.cons.injEq] at h
    obtain ⟨rfl, h⟩ := h
    exact .cons ⟨hne, hp⟩ (ih hpm h)

/-- One side of the walk is empty exactly if its node is an ancestor of the other. -/
theorem path_eq_nil_iff {path : List α} {a b c : α} (ha : mem a) (hb : mem b)
    (hline : line parent number a = path ++ line parent number c) (hc : c ∈ line parent number b)
    (hdisjoint : path.Disjoint (line parent number b)) : path = [] ↔ Ancestor parent root a b := by
  rw [← T.mem_line_iff hb]
  constructor
  · rintro rfl
    have hac : ascend parent ([] : List α).length a = some c := T.ascend_of_line ha hline
    rwa [Option.some.inj hac]
  · intro hab
    cases path with
    | nil => rfl
    | cons x path =>
      obtain ⟨rest, hrest⟩ := line_eq_cons parent number a
      rw [hrest, List.cons_append, List.cons.injEq] at hline
      exact absurd (hline.1 ▸ hab) (hdisjoint List.mem_cons_self)

/-- The walk finds the lowest common ancestor, and the chains down to it. -/
theorem divergentPaths_lowest {same : α → α → Bool}
    (hsame : ∀ a b, mem a → mem b → (same a b = true ↔ a = b)) {a b : α} (ha : mem a) (hb : mem b) :
    ∃ oldPath newPath c, divergentPaths parent number same a b = some (oldPath, newPath) ∧
      LowestCommonAncestor parent root a b c ∧ Path parent root oldPath a c ∧ Path parent root newPath b c ∧
      oldPath.Disjoint newPath ∧ (oldPath = [] ↔ Ancestor parent root a b) ∧
      (newPath = [] ↔ Ancestor parent root b a) := by
  obtain ⟨oldPath, newPath, c, hpaths, hc, hold, hnew, hdold, hdnew⟩ := T.divergentPaths_spec hsame ha hb
  have hca : c ∈ line parent number a := hold ▸ List.mem_append_right _ (self_mem_line c)
  have hcb : c ∈ line parent number b := hnew ▸ List.mem_append_right _ (self_mem_line c)
  refine ⟨oldPath, newPath, c, hpaths, ⟨(T.mem_line_iff ha).mp hca, (T.mem_line_iff hb).mp hcb, fun d hda hdb => ?_⟩,
    T.path_of_line ha hold, T.path_of_line hb hnew, fun d hdo hdn => ?_, T.path_eq_nil_iff ha hb hold hcb hdold,
    T.path_eq_nil_iff hb ha hnew hca hdnew⟩
  · -- a common ancestor is not passed on the way, so it is on the line of `c`
    rw [← T.mem_line_iff ha, hold] at hda
    rw [← T.mem_line_iff hb] at hdb
    rw [← T.mem_line_iff hc]
    exact (List.mem_append.mp hda).resolve_left fun hd => hdold hd hdb
  · exact hdold hdo (hnew ▸ List.mem_append_left _ hdn)

end Tree

namespace RootedTree

variable (T : RootedTree parent number mem root)
include T

/-- Numbers fall along links, so every member has the root above it. -/
theorem root_le {b : α} (hb : mem b) : number root ≤ number b := by
  induction hn : number b using Nat.strong_induction_on generalizing b with
  | _ n ih =>
    by_cases hroot : b = root
    · rw [← hn, hroot]
    · obtain ⟨p, -, hpm, hnum⟩ := T.parent_of_ne b hb hroot
      exact (ih (number p) (by omega) hpm rfl).trans (by omega)

/-- The tree, numbered from its root. -/
theorem tree : Tree parent (fun b => number b - number root) mem root where
  root_mem := T.root_mem
  root_number := Nat.sub_self _
  parent_of_ne := by
    intro b hb hne
    obtain ⟨p, hp, hpm, hnum⟩ := T.parent_of_ne b hb hne
    have := T.root_le hpm
    exact ⟨p, hp, hpm, by omega⟩

theorem lower_shift {bound k : Nat} {b : α}
    (hbound : number root ≤ bound) (hb : mem b) : lower parent number bound k b =
      lower parent (fun b => number b - number root) (bound - number root) k b := by
  have hiff (b : α) : bound - number root < number b - number root ↔ bound < number b := by omega
  induction k generalizing b with
  | zero => simp only [lower, hiff]
  | succ k ih =>
    simp only [lower, hiff]
    split
    · next hlt =>
      have hne : b ≠ root := by
        rintro rfl
        omega
      obtain ⟨p, hp, hpm, -⟩ := T.parent_of_ne b hb hne
      simp only [hp, Option.bind_eq_bind, Option.bind_some, ih hpm]
    · rfl

/-- The walk does not depend on the number of the root. -/
theorem divergentPaths_shift {same : α → α → Bool} {a b : α}
    {r : List α × List α} (ha : mem a) (hb : mem b)
    (h : divergentPaths parent (fun b => number b - number root) same a b = some r) :
    divergentPaths parent number same a b = some r := by
  simp only [divergentPaths, Option.bind_eq_bind, Option.bind_eq_some_iff] at h ⊢
  obtain ⟨⟨oldPath, a'⟩, hold, ⟨newPath, b'⟩, hnew, paths, hmeet, hr⟩ := h
  obtain ⟨path, c, hlower, hc, -⟩ := T.tree.lower_spec (number b - number root) ha le_rfl
  obtain ⟨-, rfl⟩ := Prod.mk.inj (Option.some.inj (hlower.symm.trans hold))
  refine ⟨(oldPath, c), ?_, (newPath, b'), ?_, paths, meet_mono (Nat.sub_le _ _) hmeet, hr⟩
  · rw [T.lower_shift (T.root_le hb) ha]
    exact lower_mono (Nat.sub_le _ _) hold
  · rw [T.lower_shift (T.root_le hc) hb]
    exact lower_mono (Nat.sub_le _ _) hnew

end RootedTree

end Ancestry
