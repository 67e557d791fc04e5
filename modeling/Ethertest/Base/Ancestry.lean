-- SUMMARY: Lines of descent in a numbered tree, and the walk that splits two lines at a common ancestor.
import Mathlib

/-!
# Lines of descent

A tree is given by a partial parent function and a number that grows by one from
a parent to its child. The *line* of a node lists it and its ancestors, the node
first and the root last. `Ancestry.divergentPaths` walks two nodes up to an
ancestor they share and returns what it passed on either side.
-/

namespace Ancestry

variable {α : Type}

section Walks

variable (parent : α → Option α) (number : α → Nat)

/-- A node and at most `k` of its ancestors, nearest first. -/
def lineFrom : Nat → α → List α
  | 0, b => [b]
  | k + 1, b => b :: (parent b).elim [] (lineFrom k)

/-- A node and its ancestors, nearest first. -/
def line (b : α) : List α :=
  lineFrom parent (number b) b

/-- The ancestor `k` steps up. -/
def ascend : Nat → α → Option α
  | 0, b => some b
  | k + 1, b => (parent b).bind (ascend k)

/-- Walk up while the number is above a bound; the nodes passed and the node reached. -/
def lower (bound : Nat) : Nat → α → Option (List α × α)
  | 0, b => if bound < number b then none else some ([], b)
  | k + 1, b =>
    if bound < number b then do
      let p ← parent b
      let (path, last) ← lower bound k p
      some (b :: path, last)
    else some ([], b)

/-- Walk two nodes up side by side until they are the same; the nodes passed on either side. -/
def meet (same : α → α → Bool) : Nat → α → α → Option (List α × List α)
  | 0, a, b => if same a b then some ([], []) else none
  | k + 1, a, b =>
    if same a b then some ([], []) else do
      let pa ← parent a
      let pb ← parent b
      let (x, y) ← meet same k pa pb
      some (a :: x, b :: y)

/-- Walk two nodes up to a common ancestor: first the higher one down to the other's
number, then both. -/
def divergentPaths (same : α → α → Bool) (a b : α) : Option (List α × List α) := do
  let (oldPath, a') ← lower parent number (number b) (number a) a
  let (newPath, b') ← lower parent number (number a') (number b) b
  let (x, y) ← meet parent same (number a') a' b'
  some (oldPath ++ x, newPath ++ y)

/-- The members of a set form a tree: every member but the root has a parent in the
set, numbered one less. -/
structure Tree (mem : α → Prop) (root : α) : Prop where
  root_mem : mem root
  root_number : number root = 0
  parent_of_ne : ∀ b, mem b → b ≠ root → ∃ p, parent b = some p ∧ mem p ∧ number b = number p + 1

end Walks

variable {parent : α → Option α} {number : α → Nat} {mem : α → Prop} {root : α}

namespace Tree

variable (T : Tree parent number mem root)
include T

variable {a b : α} {k : Nat} {parent' : α → Option α} {same : α → α → Bool}

theorem eq_root (hb : mem b) (h : number b = 0) : b = root := by
  by_contra hne
  obtain ⟨p, -, -, hnum⟩ := T.parent_of_ne b hb hne
  omega

/-- Induction along lines of descent. -/
theorem induct {P : ∀ b, mem b → Prop} (hroot : P root T.root_mem)
    (hchild : ∀ b p (hb : mem b), b ≠ root → parent b = some p → ∀ hp : mem p,
      number b = number p + 1 → P p hp → P b hb) (b : α) (hb : mem b) : P b hb := by
  generalize hk : number b = k
  induction k generalizing b with
  | zero =>
    obtain rfl := T.eq_root hb hk
    exact hroot
  | succ k ih =>
    have hne : b ≠ root := by
      rintro rfl
      rw [T.root_number] at hk
      omega
    obtain ⟨p, hp, hpm, hnum⟩ := T.parent_of_ne b hb hne
    exact hchild b p hb hne hp hpm hnum (ih p hpm (by omega))

theorem line_root : line parent number root = [root] := by
  simp [line, T.root_number, lineFrom]

omit T in
theorem line_child {p : α} (hp : parent b = some p) (hnum : number b = number p + 1) :
    line parent number b = b :: line parent number p := by
  simp [line, hnum, lineFrom, hp]

variable (parent number) in
omit T in
/-- A line starts with its node. -/
theorem line_eq_cons (b : α) : ∃ rest, line parent number b = b :: rest := by
  cases h : number b with
  | zero => exact ⟨[], by simp [line, h, lineFrom]⟩
  | succ k => exact ⟨(parent b).elim [] (lineFrom parent k), by simp only [line, h, lineFrom]⟩

omit T in
theorem self_mem_line (b : α) : b ∈ line parent number b := by
  obtain ⟨rest, h⟩ := line_eq_cons parent number b
  simp [h]

theorem mem_of_mem_line (hb : mem b) (ha : a ∈ line parent number b) : mem a := by
  induction b, hb using T.induct with
  | hroot =>
    rw [T.line_root, List.mem_singleton] at ha
    exact ha ▸ T.root_mem
  | hchild b p hbm _ hp _ hnum ih =>
    rw [line_child hp hnum, List.mem_cons] at ha
    rcases ha with rfl | ha
    · exact hbm
    · exact ih ha

theorem root_mem_line (hb : mem b) : root ∈ line parent number b := by
  induction b, hb using T.induct with
  | hroot => simp [T.line_root]
  | hchild b p _ _ hp _ hnum ih => simp [line_child hp hnum, ih]

/-- What follows a node in a line is the rest of that node's own line. -/
theorem line_split (hb : mem b) (ha : a ∈ line parent number b) :
    ∃ path, line parent number b = path ++ line parent number a := by
  induction b, hb using T.induct with
  | hroot =>
    rw [T.line_root, List.mem_singleton] at ha
    exact ⟨[], by rw [ha]; rfl⟩
  | hchild b p _ _ hp _ hnum ih =>
    rw [line_child hp hnum, List.mem_cons] at ha
    rcases ha with rfl | ha
    · exact ⟨[], rfl⟩
    · obtain ⟨path, hpath⟩ := ih ha
      exact ⟨b :: path, by rw [line_child hp hnum, hpath]; rfl⟩

section Growing

variable {f : α → Nat} (hf : ∀ {b p}, mem b → b ≠ root → parent b = some p → f p < f b)
include hf

theorem le_of_mem_line {a b : α} (hb : mem b) (ha : a ∈ line parent number b) : f a ≤ f b := by
  induction b, hb using T.induct with
  | hroot =>
    rw [T.line_root, List.mem_singleton] at ha
    exact ha ▸ le_rfl
  | hchild b p hbm hne hp _ hnum ih =>
    rw [line_child hp hnum, List.mem_cons] at ha
    rcases ha with rfl | ha
    · exact le_rfl
    · exact (ih ha).trans (hf hbm hne hp).le

/-- What grows from parent to child falls strictly along a line. -/
theorem line_pairwise {b : α} (hb : mem b) : (line parent number b).Pairwise fun x y => f y < f x := by
  induction b, hb using T.induct with
  | hroot => simp [T.line_root]
  | hchild b p hbm hne hp hpm hnum ih =>
    rw [line_child hp hnum, List.pairwise_cons]
    exact ⟨fun a ha => (T.le_of_mem_line hf hpm ha).trans_lt (hf hbm hne hp), ih⟩

/-- Two members of one line with the same value are the same. -/
theorem eq_of_mem_line {a a' b : α} (hb : mem b) (ha : a ∈ line parent number b)
    (ha' : a' ∈ line parent number b) (h : f a = f a') : a = a' := by
  obtain ⟨path, hpath⟩ := T.line_split hb ha
  obtain ⟨rest, hrest⟩ := line_eq_cons parent number a
  have hsorted := T.line_pairwise hf hb
  rw [hpath, hrest, List.pairwise_append, List.pairwise_cons] at hsorted
  rw [hpath, hrest, List.mem_append, List.mem_cons] at ha'
  -- values before `a` in the line are above its own, values after it below
  rcases ha' with hbefore | rfl | hafter
  · exact absurd (hsorted.2.2 a' hbefore a List.mem_cons_self) (by omega)
  · rfl
  · exact absurd (hsorted.2.1.1 a' hafter) (by omega)

end Growing

theorem number_lt {p : α} (hb : mem b) (hne : b ≠ root) (hp : parent b = some p) : number p < number b := by
  obtain ⟨q, hq, -, hnum⟩ := T.parent_of_ne b hb hne
  obtain rfl : q = p := Option.some.inj (hq.symm.trans hp)
  omega

theorem line_nodup (hb : mem b) : (line parent number b).Nodup :=
  (T.line_pairwise T.number_lt hb).imp fun h he => absurd (he ▸ h) (lt_irrefl _)

/-- A line has a node of every number up to that of its first node. -/
theorem exists_mem_line (hb : mem b) (hk : k ≤ number b) : ∃ a ∈ line parent number b, number a = k := by
  induction b, hb using T.induct with
  | hroot =>
    rw [T.root_number, Nat.le_zero] at hk
    exact ⟨root, self_mem_line root, by rw [T.root_number, hk]⟩
  | hchild b p _ _ hp _ hnum ih =>
    rw [line_child hp hnum]
    rcases Nat.lt_or_eq_of_le hk with hlt | rfl
    · obtain ⟨a, ha, hak⟩ := ih (by omega)
      exact ⟨a, List.mem_cons_of_mem _ ha, hak⟩
    · exact ⟨b, List.mem_cons_self, rfl⟩

/-- Lines depend only on the parents of the members. -/
theorem line_congr (h : ∀ b, mem b → b ≠ root → parent' b = parent b) (hb : mem b) :
    line parent' number b = line parent number b := by
  induction b, hb using T.induct with
  | hroot => simp [line, T.root_number, lineFrom]
  | hchild b p hbm hne hp _ hnum ih =>
    rw [line_child hp hnum, line_child ((h b hbm hne).trans hp) hnum, ih]

/-- A new leaf on a member gives a tree again. The leaf may be there already. -/
theorem add_leaf {leaf p : α} (hp : mem p) (h : ∀ b, mem b → b ≠ root → parent' b = parent b)
    (hleaf : parent' leaf = some p) (hnum : number leaf = number p + 1) :
    Tree parent' number (fun b => mem b ∨ b = leaf) root where
  root_mem := .inl T.root_mem
  root_number := T.root_number
  parent_of_ne := by
    rintro b (hb | rfl) hne
    · obtain ⟨q, hq, hqm, hqn⟩ := T.parent_of_ne b hb hne
      exact ⟨q, (h b hb hne).trans hq, .inl hqm, hqn⟩
    · exact ⟨p, hleaf, .inl hp, hnum⟩

/-! ## The walk to a common ancestor -/

theorem lower_spec (bound : Nat) (hb : mem b) (hk : number b ≤ k) :
    ∃ path c, lower parent number bound k b = some (path, c) ∧ mem c ∧
      number c = min (number b) bound ∧ line parent number b = path ++ line parent number c ∧
      ∀ d ∈ path, bound < number d := by
  induction k generalizing b with
  | zero =>
    have h0 : ¬ bound < number b := by omega
    exact ⟨[], b, by simp [lower, h0], hb, by omega, rfl, by simp⟩
  | succ k ih =>
    by_cases h : bound < number b
    · have hne : b ≠ root := by
        rintro rfl
        rw [T.root_number] at h
        omega
      obtain ⟨p, hp, hpm, hnum⟩ := T.parent_of_ne b hb hne
      obtain ⟨path, c, hlow, hc, hcn, hline, hpath⟩ := ih hpm (by omega)
      refine ⟨b :: path, c, by simp [lower, h, hp, hlow], hc, by omega, ?_, List.forall_mem_cons.mpr ⟨h, hpath⟩⟩
      rw [line_child hp hnum, hline]
      rfl
    · exact ⟨[], b, by simp [lower, h], hb, by omega, rfl, by simp⟩

/-- One more node on a path that avoids a line. -/
theorem disjoint_cons {pa pb : α} {x : List α} (hb : mem b) (hpam : mem pa) (hab : a ≠ b)
    (hnum : number a = number b) (hpan : number a = number pa + 1) (hpb : parent b = some pb)
    (hpbn : number b = number pb + 1) (hx : x ⊆ line parent number pa)
    (h : x.Disjoint (line parent number pb)) : (a :: x).Disjoint (line parent number b) := by
  intro d hd hdb
  rcases List.mem_cons.mp hd with rfl | hd
  · exact hab (T.eq_of_mem_line T.number_lt hb hdb (self_mem_line b) hnum)
  · rw [line_child hpb hpbn, List.mem_cons] at hdb
    rcases hdb with rfl | hdb
    · have := T.le_of_mem_line T.number_lt hpam (hx hd)
      omega
    · exact h hd hdb

theorem meet_spec (hsame : ∀ a b, mem a → mem b → (same a b = true ↔ a = b)) (ha : mem a) (hb : mem b)
    (hnum : number a = number b) (hk : number a ≤ k) :
    ∃ x y c, meet parent same k a b = some (x, y) ∧ mem c ∧
      line parent number a = x ++ line parent number c ∧
      line parent number b = y ++ line parent number c ∧
      x.Disjoint (line parent number b) ∧ y.Disjoint (line parent number a) := by
  induction k generalizing a b with
  | zero =>
    have hab : a = b := (T.eq_root ha (by omega)).trans (T.eq_root hb (by omega)).symm
    exact ⟨[], [], a, by simp [meet, (hsame a b ha hb).2 hab], ha, rfl, by rw [hab]; rfl,
      List.disjoint_nil_left _, List.disjoint_nil_left _⟩
  | succ k ih =>
    by_cases hab : a = b
    · exact ⟨[], [], a, by simp [meet, (hsame a b ha hb).2 hab], ha, rfl, by rw [hab]; rfl,
      List.disjoint_nil_left _, List.disjoint_nil_left _⟩
    · -- two different nodes of one number: neither is the root, so both have parents
      have hna : a ≠ root := by
        rintro rfl
        exact hab (T.eq_root hb (by rw [← hnum, T.root_number])).symm
      have hnb : b ≠ root := by
        rintro rfl
        exact hab (T.eq_root ha (by rw [hnum, T.root_number]))
      obtain ⟨pa, hpa, hpam, hpan⟩ := T.parent_of_ne a ha hna
      obtain ⟨pb, hpb, hpbm, hpbn⟩ := T.parent_of_ne b hb hnb
      obtain ⟨x, y, c, hmeet, hc, hx, hy, hdx, hdy⟩ := ih hpam hpbm (by omega) (by omega)
      have hfalse : same a b = false := by
        rw [← Bool.not_eq_true, hsame a b ha hb]
        exact hab
      refine ⟨a :: x, b :: y, c, by simp [meet, hfalse, hpa, hpb, hmeet], hc, ?_, ?_, ?_, ?_⟩
      · rw [line_child hpa hpan, hx]
        rfl
      · rw [line_child hpb hpbn, hy]
        rfl
      · exact T.disjoint_cons hb hpam hab hnum hpan hpb hpbn (by rw [hx]; exact List.subset_append_left _ _) hdx
      · exact T.disjoint_cons ha hpbm (Ne.symm hab) hnum.symm hpbn hpa hpan
          (by rw [hy]; exact List.subset_append_left _ _) hdy

/-- The walk succeeds on any two members, and what it passes on either side is what
separates the two lines from the line of an ancestor they share. Neither side meets the
other line. -/
theorem divergentPaths_spec (hsame : ∀ a b, mem a → mem b → (same a b = true ↔ a = b)) (ha : mem a)
    (hb : mem b) :
    ∃ oldPath newPath c, divergentPaths parent number same a b = some (oldPath, newPath) ∧ mem c ∧
      line parent number a = oldPath ++ line parent number c ∧
      line parent number b = newPath ++ line parent number c ∧
      oldPath.Disjoint (line parent number b) ∧ newPath.Disjoint (line parent number a) := by
  obtain ⟨oldPath, a', hlowa, ha', hna', hlinea, hold⟩ := T.lower_spec (number b) ha le_rfl
  obtain ⟨newPath, b', hlowb, hb', hnb', hlineb, hnew⟩ := T.lower_spec (number a') hb le_rfl
  obtain ⟨x, y, c, hmeet, hc, hx, hy, hdx, hdy⟩ := T.meet_spec hsame ha' hb' (by omega) le_rfl
  have hle {d e : α} (he : mem e) (hd : d ∈ line parent number e) : number d ≤ number e :=
    T.le_of_mem_line T.number_lt he hd
  refine ⟨oldPath ++ x, newPath ++ y, c, ?_, hc, ?_, ?_, ?_, ?_⟩
  · simp [divergentPaths, hlowa, hlowb, hmeet]
  · rw [hlinea, hx, List.append_assoc]
  · rw [hlineb, hy, List.append_assoc]
  · -- what was passed first is numbered above `b`; the rest avoids the line of `b'`
    intro d hd hdb
    have hdle := hle hb hdb
    rcases List.mem_append.mp hd with hd | hd
    · have := hold d hd
      omega
    · rw [hlineb] at hdb
      rcases List.mem_append.mp hdb with hdb | hdb
      · have := hnew d hdb
        have := hle ha' (show d ∈ line parent number a' from hx ▸ List.mem_append_left _ hd)
        omega
      · exact hdx hd hdb
  · intro d hd hda
    rw [hlinea] at hda
    rcases List.mem_append.mp hda with hda | hda
    · have := hold d hda
      have := hle hb (show d ∈ line parent number b by
        rw [hlineb, hy, ← List.append_assoc]
        exact List.mem_append_left _ hd)
      omega
    · rcases List.mem_append.mp hd with hd | hd
      · have := hnew d hd
        have := hle ha' hda
        omega
      · exact hdy hd hda

/-- Climbing past a path that leads to `c` ends at `c`. -/
theorem ascend_of_line {path : List α} {c : α} (ha : mem a)
    (h : line parent number a = path ++ line parent number c) : ascend parent path.length a = some c := by
  induction path generalizing a with
  | nil =>
    obtain ⟨ra, hra⟩ := line_eq_cons parent number a
    obtain ⟨rc, hrc⟩ := line_eq_cons parent number c
    rw [hra, hrc] at h
    simp only [List.nil_append, List.cons.injEq] at h
    simp [ascend, h.1]
  | cons x path ih =>
    obtain ⟨rc, hrc⟩ := line_eq_cons parent number c
    have hne : a ≠ root := by
      rintro rfl
      rw [T.line_root, hrc] at h
      simp at h
    obtain ⟨p, hp, hpm, hnum⟩ := T.parent_of_ne a ha hne
    rw [line_child hp hnum, List.cons_append, List.cons.injEq] at h
    simp [ascend, hp, ih hpm h.2]

end Tree

end Ancestry
