-- SUMMARY: Perfect binary hash trees over an infinite row of leaves: levels, padding and branches.
import Mathlib

/-!
# Hash trees

The leaves are a function of their index, so a tree of any depth exists over them and padding
is a property of the function. `node` is the value of a node by height and index. A row that a
program holds is a `level`, hashing its pairs gives the next one, and a `branch` of siblings
folds back to the node it climbs to. Nothing is assumed of the hash.
-/

namespace HashTree

variable {α : Type} (hash : α → α → α)

/-! ## Nodes -/

/-- The node at a height, over the leaves below it. -/
def node (leaf : Nat → α) : Nat → Nat → α
  | 0, i => leaf i
  | height + 1, i => hash (node leaf height (2 * i)) (node leaf height (2 * i + 1))

/-- The hashes of adjacent pairs; a last single node is left out. -/
def parents : List α → List α
  | [] => []
  | [_] => []
  | a :: b :: rest => hash a b :: parents rest

/-- The first nodes at a height. -/
def level (leaf : Nat → α) (height width : Nat) : List α :=
  (List.range width).map (node hash leaf height)

variable {hash} {leaf : Nat → α} {height width : Nat}

@[simp] theorem length_level : (level hash leaf height width).length = width := by simp [level]

theorem getElem?_level {i : Nat} (h : i < width) :
    (level hash leaf height width)[i]? = some (node hash leaf height i) := by
  simp [level, h]

theorem level_succ :
    level hash leaf height (width + 1) = level hash leaf height width ++ [node hash leaf height width] := by
  simp [level, List.range_succ]

@[simp] theorem length_parents (nodes : List α) : (parents hash nodes).length = nodes.length / 2 := by
  fun_induction parents hash nodes with
  | case1 => simp
  | case2 a => simp
  | case3 a b rest ih =>
    simp only [List.length_cons, ih]
    omega

theorem parents_append {nodes rest : List α} (h : nodes.length % 2 = 0) :
    parents hash (nodes ++ rest) = parents hash nodes ++ parents hash rest := by
  fun_induction parents hash nodes with
  | case1 => rfl
  | case2 a => simp at h
  | case3 a b nodes ih =>
    simp only [List.length_cons] at h
    rw [List.cons_append, List.cons_append, List.cons_append, parents, ih (by omega)]

/-- Hashing the pairs of a level gives the level above. -/
theorem parents_level : parents hash (level hash leaf height (2 * width)) = level hash leaf (height + 1) width := by
  induction width with
  | zero => rfl
  | succ width ih =>
    rw [Nat.mul_succ, level_succ, level_succ, List.append_assoc, parents_append (by simp), ih, level_succ]
    rfl

/-! ## Padding -/

/-- The node at a height over equal leaves. -/
def padding (hash : α → α → α) (zero : α) (height : Nat) : α :=
  (fun node => hash node node)^[height] zero

theorem padding_succ (zero : α) :
    padding hash zero (height + 1) = hash (padding hash zero height) (padding hash zero height) :=
  Function.iterate_succ_apply' ..

/-- From an index on, a level holds nothing but padding. -/
def PaddedFrom (hash : α → α → α) (leaf : Nat → α) (zero : α) (height width : Nat) : Prop :=
  ∀ i, width ≤ i → node hash leaf height i = padding hash zero height

variable {zero : α}

/-- The level above is padded from half the width on, rounded up. -/
theorem PaddedFrom.up (h : PaddedFrom hash leaf zero height width) :
    PaddedFrom hash leaf zero (height + 1) ((width + 1) / 2) := fun i hi => by
  rw [padding_succ, node, h (2 * i) (by omega), h (2 * i + 1) (by omega)]

theorem PaddedFrom.mono {width' : Nat} (h : PaddedFrom hash leaf zero height width) (hle : width ≤ width') :
    PaddedFrom hash leaf zero height width' := fun i hi => h i (hle.trans hi)

/-- A list of leaves with zero leaves after it. -/
def padded (zero : α) (leaves : List α) (i : Nat) : α := leaves.getD i zero

theorem level_padded (leaves : List α) : level hash (padded zero leaves) 0 leaves.length = leaves := by
  refine List.ext_getElem (by simp) fun i hi hi' => ?_
  simp [level, node, padded, List.getElem?_eq_getElem hi']

theorem paddedFrom_padded (leaves : List α) :
    PaddedFrom hash (padded zero leaves) zero 0 leaves.length := fun i hi => by
  simp [node, padded, padding, List.getElem?_eq_none hi]

/-- A list filled up with zero leaves is a level of the padded leaves. -/
theorem level_padded_replicate {leaves : List α} (h : leaves.length ≤ width) :
    leaves ++ List.replicate (width - leaves.length) zero = level hash (padded zero leaves) 0 width := by
  refine List.ext_getElem (by simp [h]) fun i hi hi' => ?_
  simp only [level, List.getElem_map, List.getElem_range, node, padded, List.getD_eq_getElem?_getD]
  by_cases hin : i < leaves.length
  · rw [List.getElem_append_left hin, List.getElem?_eq_getElem hin, Option.getD_some]
  · rw [List.getElem_append_right (by omega), List.getElem_replicate, List.getElem?_eq_none (by omega),
      Option.getD_none]

/-! ## Branches -/

/-- The siblings met on the way up from a node, for a number of levels. -/
def branch (hash : α → α → α) (leaf : Nat → α) : Nat → Nat → Nat → List α
  | 0, _, _ => []
  | levels + 1, height, i => node hash leaf height (i ^^^ 1) :: branch hash leaf levels (height + 1) (i / 2)

/-- Fold a branch into a node along the bits of its index, lowest bit first. -/
def climb (hash : α → α → α) : α → Nat → List α → α
  | value, _, [] => value
  | value, i, sibling :: rest =>
    climb hash (if i % 2 = 0 then hash value sibling else hash sibling value) (i / 2) rest

@[simp] theorem length_branch {levels i : Nat} : (branch hash leaf levels height i).length = levels := by
  induction levels generalizing height i with
  | zero => rfl
  | succ levels ih => simp [branch, ih]

/-- A node and its sibling hash to their parent, in the order of the lowest bit. -/
theorem hash_sibling (i : Nat) :
    (if i % 2 = 0 then hash (node hash leaf height i) (node hash leaf height (i ^^^ 1))
      else hash (node hash leaf height (i ^^^ 1)) (node hash leaf height i)) = node hash leaf (height + 1) (i / 2) := by
  split
  next heven =>
    rw [Nat.xor_one_of_even (Nat.even_iff.mpr heven), node, Nat.mul_div_cancel' (Nat.dvd_of_mod_eq_zero heven)]
  next hodd =>
    have hodd : i % 2 = 1 := by omega
    have hdouble : 2 * (i / 2) = i - 1 := by omega
    rw [Nat.xor_one_of_odd (Nat.odd_iff.mpr hodd), node, hdouble, Nat.sub_add_cancel (by omega)]

/-- A branch climbs to the node that it was read for. -/
theorem climb_branch (levels i : Nat) :
    climb hash (node hash leaf height i) i (branch hash leaf levels height i) =
      node hash leaf (height + levels) (i / 2 ^ levels) := by
  induction levels generalizing height i with
  | zero => simp [branch, climb]
  | succ levels ih =>
    rw [branch, climb, hash_sibling, ih, Nat.div_div_eq_div_mul, ← pow_succ', Nat.succ_add_eq_add_succ]

theorem climb_append (value : α) (i : Nat) (first second : List α) :
    climb hash value i (first ++ second) = climb hash (climb hash value i first) (i / 2 ^ first.length) second := by
  induction first generalizing value i with
  | nil => simp [climb]
  | cons sibling first ih =>
    rw [List.cons_append, climb, ih, climb, List.length_cons, Nat.div_div_eq_div_mul, ← pow_succ']

/-- Only as many bits count as the branch has levels. -/
theorem climb_congr {value : α} {i j : Nat} {siblings : List α}
    (h : i % 2 ^ siblings.length = j % 2 ^ siblings.length) :
    climb hash value i siblings = climb hash value j siblings := by
  induction siblings generalizing value i j with
  | nil => rfl
  | cons sibling siblings ih =>
    rw [List.length_cons, pow_succ'] at h
    have hlow : i % 2 = j % 2 := by
      rw [← Nat.mod_mul_right_mod i 2 (2 ^ siblings.length), h, Nat.mod_mul_right_mod]
    have hhigh : i / 2 % 2 ^ siblings.length = j / 2 % 2 ^ siblings.length := by
      rw [← Nat.mod_mul_right_div_self, h, Nat.mod_mul_right_div_self]
    rw [climb, climb, hlow, ih hhigh]

end HashTree
