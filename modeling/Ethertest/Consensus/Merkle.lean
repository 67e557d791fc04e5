-- SUMMARY: The Merkleization of consensus bodies: full rows, sparse lists and the siblings of a leaf.
import Ethertest.Base.Except
import Ethertest.Base.Merkle
import Ethertest.Requests.Codec

/-!
# Merkleization

The consensus model hashes rows of 32-byte chunks level by level. A list is hashed sparsely: a
row is filled up with one zero hash where its width is odd, and a single node is extended to the
depth of the list. Both meet the perfect tree over the leaves with zero leaves after them. An
index that is out of range would be a panic.
-/

namespace Ethertest

namespace Consensus

open HashTree

abbrev Chunk := FixedBytes 32

def zeroChunk : Chunk := copyFixed 32 []

/-- The length of a list, in the first eight bytes of a chunk. -/
def lengthChunk (length : Nat) : Chunk := copyFixed 32 (putUint64 (UInt64.ofNat length))

variable (hashPair : Chunk → Chunk → Chunk)

/-! ## Rows -/

def merkleizeFixed (leaves : List Chunk) : Except Error Chunk :=
  if 1 < leaves.length then merkleizeFixed (parents hashPair leaves)
  else orFail leaves.head? (.panic "index out of range")
termination_by leaves.length
decreasing_by
  rw [length_parents]
  omega

/-- The loop that collects the sibling of a node on every level. -/
def siblings : Nat → Nat → List Chunk → Except Error (List Chunk)
  | 0, _, _ => .ok []
  | levels + 1, index, nodes => do
    let sibling ← orFail nodes[index ^^^ 1]? (.panic "index out of range")
    let rest ← siblings levels (index / 2) (parents hashPair nodes)
    .ok (sibling :: rest)

/-! ## Sparse lists -/

/-- The loop of `merkleizeList` while there is more than one node. -/
def shrink (zeros nodes : List Chunk) (level : Nat) : Except Error (List Chunk × Nat) :=
  if nodes.length ≤ 1 then .ok (nodes, level)
  else if nodes.length % 2 = 0 then shrink zeros (parents hashPair nodes) (level + 1)
  else
    match zeros[level]? with
    | none => .error (.panic "index out of range")
    | some zero => shrink zeros (parents hashPair (nodes ++ [zero])) (level + 1)
termination_by nodes.length
decreasing_by
  · rw [length_parents]
    omega
  · rw [length_parents, List.length_append, List.length_singleton]
    omega

/-- The loop of `merkleizeList` that extends the root, for the levels that are left. -/
def extend (zeros : List Chunk) : Nat → Nat → Chunk → Except Error Chunk
  | 0, _, root => .ok root
  | left + 1, level, root => do
    let zero ← orFail zeros[level]? (.panic "index out of range")
    extend zeros left (level + 1) (hashPair root zero)

def merkleizeList (leaves : List Chunk) (depth : Nat) : Except Error Chunk := do
  let zeros := List.iterate (fun node => hashPair node node) zeroChunk (depth + 1)
  let (nodes, level) ← shrink hashPair zeros leaves 0
  let root := nodes.head?.getD zeroChunk
  let root ← extend hashPair zeros (depth - level) level root
  .ok (hashPair root (lengthChunk leaves.length))

def zeroHash (depth : Nat) : Chunk := (fun root => hashPair root root)^[depth] zeroChunk

theorem toNat_double {size : UInt64} (h : size.toNat < 2 ^ 63) : (size <<< 1).toNat = 2 * size.toNat := by
  rw [UInt64.toNat_shiftLeft, Nat.shiftLeft_eq, Nat.mul_comm]
  exact Nat.mod_eq_of_lt (by change 2 ^ 1 * _ < _; omega)

/-- The loop of `emptyListRoot`. For a limit above `2 ^ 63` the size would wrap to zero, and the
loop would not end. -/
def doublings (limit size : UInt64) (depth : Nat) (hlimit : limit.toNat ≤ 2 ^ 63) (hsize : 0 < size.toNat) : Nat :=
  if h : size < limit then
    doublings limit (size <<< 1) (depth + 1) hlimit (by
      rw [toNat_double ((UInt64.lt_iff_toNat_lt.mp h).trans_le hlimit)]
      omega)
  else depth
termination_by limit.toNat - size.toNat
decreasing_by
  have hlt := UInt64.lt_iff_toNat_lt.mp h
  rw [toNat_double (hlt.trans_le hlimit)]
  omega

def emptyListRoot (limit : UInt64) (hlimit : limit.toNat ≤ 2 ^ 63 := by decide) : Chunk :=
  hashPair (zeroHash hashPair (doublings limit 1 0 hlimit (by decide))) zeroChunk

/-! ## Meeting the perfect tree -/

variable {hashPair} {leaf : Nat → Chunk} {height : Nat}

theorem merkleizeFixed_level (depth : Nat) :
    merkleizeFixed hashPair (level hashPair leaf height (2 ^ depth)) = .ok (node hashPair leaf (height + depth) 0) := by
  induction depth generalizing height with
  | zero =>
    rw [merkleizeFixed, if_neg (by simp)]
    rfl
  | succ depth ih =>
    have hwide : 1 < 2 ^ (depth + 1) := Nat.one_lt_two_pow (by omega)
    rw [merkleizeFixed, if_pos (by simpa only [length_level] using hwide), pow_succ', parents_level,
      ih, Nat.succ_add_eq_add_succ]

theorem merkleizeFixed_eq {leaves : List Chunk} {depth : Nat} (h : leaves.length = 2 ^ depth) :
    merkleizeFixed hashPair leaves = .ok (node hashPair (padded zeroChunk leaves) depth 0) := by
  have hrow : level hashPair (padded zeroChunk leaves) 0 (2 ^ depth) = leaves := h ▸ level_padded leaves
  conv_lhs => rw [← hrow]
  rw [merkleizeFixed_level, Nat.zero_add]

theorem siblings_level {levels i : Nat} (h : i < 2 ^ levels) :
    siblings hashPair levels i (level hashPair leaf height (2 ^ levels)) =
      .ok (branch hashPair leaf levels height i) := by
  induction levels generalizing height i with
  | zero => rfl
  | succ levels ih =>
    have hsibling : i ^^^ 1 < 2 ^ (levels + 1) := Nat.xor_lt_two_pow h (Nat.one_lt_two_pow (by omega))
    have hparent : i / 2 < 2 ^ levels := by
      rw [pow_succ] at h
      omega
    rw [siblings, getElem?_level hsibling, pow_succ', parents_level, ih hparent]
    rfl

theorem getElem?_zeros {depth i : Nat} (h : i ≤ depth) :
    (List.iterate (fun node => hashPair node node) zeroChunk (depth + 1))[i]? =
      some (padding hashPair zeroChunk i) :=
  List.getElem?_iterate _ _ _ _ (Nat.lt_succ_of_le h)

/-- Shrinking a row that is not empty ends in one node, somewhere up to the depth. -/
theorem shrink_level {depth width : Nat} (hpos : 0 < width) (hheight : height ≤ depth)
    (hwidth : width ≤ 2 ^ (depth - height)) (hpadded : PaddedFrom hashPair leaf zeroChunk height width) :
    ∃ top, top ≤ depth ∧ PaddedFrom hashPair leaf zeroChunk top 1 ∧
      shrink hashPair (List.iterate (fun node => hashPair node node) zeroChunk (depth + 1))
        (level hashPair leaf height width) height = .ok ([node hashPair leaf top 0], top) := by
  induction hn : width using Nat.strong_induction_on generalizing height width with
  | _ n ih =>
    subst hn
    by_cases hdone : width ≤ 1
    · obtain rfl : width = 1 := by omega
      exact ⟨height, hheight, hpadded, by rw [shrink, if_pos (by simp)]; rfl⟩
    · have hbelow : height < depth := by
        by_contra hge
        rw [Nat.sub_eq_zero_of_le (not_lt.mp hge), pow_zero] at hwidth
        exact hdone hwidth
      have hhalf : (width + 1) / 2 ≤ 2 ^ (depth - (height + 1)) := by
        have hsucc : depth - height = depth - (height + 1) + 1 := by omega
        rw [hsucc, pow_succ] at hwidth
        omega
      obtain ⟨top, htop, hpad, hshrink⟩ :=
        ih ((width + 1) / 2) (by omega) (by omega) hbelow hhalf hpadded.up rfl
      refine ⟨top, htop, hpad, ?_⟩
      rw [shrink, if_neg (by simpa using hdone), ← hshrink, length_level]
      by_cases heven : width % 2 = 0
      · have hdouble : level hashPair leaf height width = level hashPair leaf height (2 * ((width + 1) / 2)) := by
          congr
          omega
        rw [if_pos heven, hdouble, parents_level]
      · -- the node after an odd row is padding, so the filled row is a longer level
        have hdouble : level hashPair leaf height width ++ [padding hashPair zeroChunk height] =
            level hashPair leaf height (2 * ((width + 1) / 2)) := by
          rw [← hpadded width le_rfl, ← level_succ]
          congr
          omega
        rw [if_neg heven, getElem?_zeros hheight, ← parents_level, ← hdouble]

/-- Extending the only node of a level that is not padding climbs to the root. -/
theorem extend_root {depth left : Nat} (hdepth : height + left = depth)
    (hpadded : PaddedFrom hashPair leaf zeroChunk height 1) :
    extend hashPair (List.iterate (fun node => hashPair node node) zeroChunk (depth + 1)) left height
      (node hashPair leaf height 0) = .ok (node hashPair leaf depth 0) := by
  induction left generalizing height with
  | zero =>
    subst hdepth
    rfl
  | succ left ih =>
    rw [extend, getElem?_zeros (by omega), ← hpadded 1 le_rfl]
    exact ih (by omega) hpadded.up

/-- A sparse list has the root of the perfect tree, hashed with its length. -/
theorem merkleizeList_eq {leaves : List Chunk} {depth : Nat} (h : leaves.length ≤ 2 ^ depth) :
    merkleizeList hashPair leaves depth =
      .ok (hashPair (node hashPair (padded zeroChunk leaves) depth 0) (lengthChunk leaves.length)) := by
  have hpadded : PaddedFrom hashPair (padded zeroChunk leaves) zeroChunk 0 leaves.length := paddedFrom_padded leaves
  rw [merkleizeList]
  by_cases hempty : leaves = []
  · subst hempty
    have hroot := extend_root (Nat.zero_add depth) (hpadded.mono (Nat.zero_le 1))
    rw [node, padded, List.getD_nil] at hroot
    rw [shrink, if_pos (by simp), Except.ok_do]
    simp only [List.head?_nil, Option.getD_none, Nat.sub_zero]
    rw [hroot]
    rfl
  · obtain ⟨top, htop, hpad, hshrink⟩ := shrink_level (List.length_pos_iff.mpr hempty) (Nat.zero_le depth) h hpadded
    rw [level_padded] at hshrink
    rw [hshrink, Except.ok_do]
    simp only [List.head?_cons, Option.getD_some]
    rw [extend_root (by omega) hpad]
    rfl

/-! ## Empty lists -/

private theorem leBytes_append_zeros {k n : Nat} (m : Nat) (h : n < 256 ^ k) :
    leBytes k n ++ List.replicate m 0 = leBytes (k + m) n := by
  induction k generalizing n with
  | zero =>
    obtain rfl : n = 0 := by simpa using h
    rw [Nat.zero_add]
    induction m with
    | zero => rfl
    | succ m ih => simpa [leBytes, List.replicate_succ] using ih
  | succ k ih =>
    have hhigh : n / 256 < 256 ^ k := Nat.div_lt_of_lt_mul (by rwa [← pow_succ'])
    rw [Nat.succ_add, leBytes, leBytes, List.cons_append, ih hhigh]

/-- The length chunk is the length in little-endian, over all its bytes. -/
theorem bytes_lengthChunk (length : Nat) : (lengthChunk length).bytes = leBytes 32 (length % 2 ^ 64) := by
  have hbytes : putUint64 (UInt64.ofNat length) = leBytes 8 (length % 2 ^ 64) := by
    rw [putUint64, UInt64.toNat_ofNat']
  have hlt : length % 2 ^ 64 < 256 ^ 8 := Nat.mod_lt length (by decide)
  simp only [lengthChunk, copyFixed, hbytes, length_leBytes, List.take_of_length_le
    ((length_leBytes 8 _).trans_le (by decide : 8 ≤ 32))]
  exact leBytes_append_zeros 24 hlt

private theorem lengthChunk_zero : lengthChunk 0 = zeroChunk := by decide

/-- Nothing but zero leaves is a tree of zero hashes. -/
theorem node_padded_nil (depth : Nat) : node hashPair (padded zeroChunk []) depth 0 = zeroHash hashPair depth := by
  have hpadded : PaddedFrom hashPair (padded zeroChunk []) zeroChunk depth 0 := by
    induction depth with
    | zero => exact paddedFrom_padded []
    | succ depth ih => exact ih.up
  exact hpadded 0 le_rfl

theorem merkleizeList_nil (depth : Nat) :
    merkleizeList hashPair [] depth = .ok (hashPair (zeroHash hashPair depth) zeroChunk) := by
  rw [merkleizeList_eq (Nat.zero_le _), node_padded_nil, List.length_nil, lengthChunk_zero]

/-- The doublings stop at the first depth that has room. -/
theorem isLeast_doublings {limit size : UInt64} {depth : Nat} (hlimit : limit.toNat ≤ 2 ^ 63)
    (hpos : 0 < size.toNat) (hsize : size.toNat = 2 ^ depth) :
    IsLeast {d | depth ≤ d ∧ limit.toNat ≤ 2 ^ d} (doublings limit size depth hlimit hpos) := by
  fun_induction doublings limit size depth hlimit hpos with
  | case1 size depth hpos h ih =>
    have hlt := UInt64.lt_iff_toNat_lt.mp h
    obtain ⟨⟨hdepth, hroom⟩, hleast⟩ := ih (by rw [toNat_double (hlt.trans_le hlimit), hsize, pow_succ'])
    refine ⟨⟨(Nat.le_succ depth).trans hdepth, hroom⟩, fun d hd => hleast ⟨?_, hd.2⟩⟩
    rcases Nat.lt_or_eq_of_le hd.1 with hbelow | rfl
    · exact hbelow
    · exact absurd (hsize ▸ hd.2) (Nat.not_le.mpr hlt)
  | case2 size depth hpos h =>
    exact ⟨⟨le_rfl, hsize ▸ Nat.not_lt.mp (mt UInt64.lt_iff_toNat_lt.mpr h)⟩, fun d hd => hd.1⟩

/-- Sparse Merkleization is that of the full tree, and the root of an empty list is that of the
least depth with room for its limit. -/
theorem merkleizeList_sparse (hashPair : Chunk → Chunk → Chunk) :
    (∀ depth leaves, leaves.length ≤ 2 ^ depth →
      merkleizeList hashPair leaves depth =
          .ok (hashPair (node hashPair (padded zeroChunk leaves) depth 0) (lengthChunk leaves.length)) ∧
        (lengthChunk leaves.length).bytes = leBytes 32 (leaves.length % 2 ^ 64)) ∧
      ∀ (limit : UInt64) (_ : 1 ≤ limit.toNat) (hlimit : limit.toNat ≤ 2 ^ 63), ∃ depth,
        IsLeast {d | limit.toNat ≤ 2 ^ d} depth ∧
          merkleizeList hashPair [] depth = .ok (emptyListRoot hashPair limit hlimit) := by
  refine ⟨fun depth leaves h => ⟨merkleizeList_eq h, bytes_lengthChunk _⟩, fun limit _ hlimit => ?_⟩
  have hleast := @isLeast_doublings limit 1 0 hlimit (by decide) (by decide)
  simp only [Nat.zero_le, true_and] at hleast
  exact ⟨_, hleast, merkleizeList_nil _⟩

/-- A hash that depends on both of its chunks and on their order. -/
def mixed (left right : Chunk) : Chunk :=
  copyFixed 32 (List.zipWith (fun a b => 3 * a + 5 * b + 1) left.bytes right.bytes)

/-- Five leaves at depth three, and the empty list whose limit is nine. -/
theorem merkleizeList_sparse_mixed :
    (∀ a b c d e : Chunk, merkleizeList mixed [a, b, c, d, e] 3 =
      .ok (mixed
        (mixed
          (mixed (mixed a b) (mixed c d))
          (mixed (mixed e zeroChunk) (mixed zeroChunk zeroChunk)))
        (lengthChunk 5))) ∧
      merkleizeList mixed [] 4 = .ok (emptyListRoot mixed 9) := by
  refine ⟨fun a b c d e => ((merkleizeList_sparse mixed).1 3 [a, b, c, d, e] (by simp)).1, ?_⟩
  obtain ⟨depth, hleast, hroot⟩ := (merkleizeList_sparse mixed).2 9 (by decide) (by decide)
  have hfour : IsLeast {d | (9 : UInt64).toNat ≤ 2 ^ d} 4 :=
    ⟨by decide, fun d hd => by_contra fun hlt => absurd hd (by
      have : d < 4 := by omega
      interval_cases d <;> decide)⟩
  rwa [hleast.unique hfour] at hroot

end Consensus

end Ethertest
