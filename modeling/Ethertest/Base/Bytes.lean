-- SUMMARY: Little-endian words and the slices of a string that is cut into entries of one size.
import Mathlib

/-!
# Byte strings

Little-endian encodings of natural numbers, and strings that are the concatenation
of entries of one fixed size.
-/

/-! ## Little-endian words -/

/-- The `k` lowest bytes of a number, least significant first. -/
def leBytes : Nat → Nat → List UInt8
  | 0, _ => []
  | k + 1, n => UInt8.ofNat n :: leBytes k (n / 256)

/-- The number that a little-endian byte string spells. -/
def leNat : List UInt8 → Nat
  | [] => 0
  | b :: bs => b.toNat + 256 * leNat bs

@[simp] theorem length_leBytes (k n : Nat) : (leBytes k n).length = k := by
  induction k generalizing n with
  | zero => rfl
  | succ k ih => simp [leBytes, ih]

theorem leNat_lt (bs : List UInt8) : leNat bs < 256 ^ bs.length := by
  induction bs with
  | nil => simp [leNat]
  | cons b bs ih =>
    have hb : b.toNat < 256 := b.toNat_lt
    simp only [leNat, List.length_cons, pow_succ]
    omega

/-- Reading a written number gives it back, cut to the width that was written. -/
theorem leNat_leBytes (k n : Nat) : leNat (leBytes k n) = n % 256 ^ k := by
  induction k generalizing n with
  | zero => simp [leBytes, leNat, Nat.mod_one]
  | succ k ih =>
    have hbyte : (UInt8.ofNat n).toNat = n % 256 := by simp
    rw [leBytes, leNat, ih, hbyte, pow_succ', Nat.mod_mul]

/-- Writing what was read gives the string back. -/
theorem leBytes_leNat (bs : List UInt8) : leBytes bs.length (leNat bs) = bs := by
  induction bs with
  | nil => rfl
  | cons b bs ih =>
    have hb : b.toNat < 256 := b.toNat_lt
    have hlow : UInt8.ofNat (b.toNat + 256 * leNat bs) = b := by
      apply UInt8.toNat_inj.mp
      simp only [UInt8.toNat_ofNat']
      omega
    have hhigh : (b.toNat + 256 * leNat bs) / 256 = leNat bs := by omega
    simp only [leNat, List.length_cons, leBytes, hlow, hhigh, ih]

/-! ## Entries of one size -/

variable {α : Type}

theorem length_flatten_of_forall {size : Nat} {entries : List (List α)}
    (h : ∀ entry ∈ entries, entry.length = size) : entries.flatten.length = entries.length * size := by
  rw [List.length_flatten, List.map_congr_left h, List.map_const', List.sum_replicate, smul_eq_mul]

/-- A string cut into entries of the given size; a remainder is left out. -/
def slices (size : Nat) (xs : List α) : List (List α) :=
  (List.range (xs.length / size)).map fun i => (xs.drop (i * size)).take size

theorem length_of_mem_slices {size : Nat} {xs entry : List α} (h : entry ∈ slices size xs) :
    entry.length = size := by
  simp only [slices, List.mem_map, List.mem_range] at h
  obtain ⟨i, hi, rfl⟩ := h
  have hfit : (i + 1) * size ≤ xs.length :=
    (Nat.mul_le_mul_right size hi).trans (Nat.div_mul_le_self xs.length size)
  rw [List.length_take, List.length_drop, Nat.min_eq_left]
  rw [Nat.add_mul, Nat.one_mul] at hfit
  omega

/-- Cutting off the first entry of a string. -/
theorem slices_append {size : Nat} (hsize : 0 < size) {entry rest : List α} (h : entry.length = size) :
    slices size (entry ++ rest) = entry :: slices size rest := by
  have hcount : (entry ++ rest).length / size = rest.length / size + 1 := by
    rw [List.length_append, h, Nat.add_div_left _ hsize]
  rw [slices, hcount, List.range_succ_eq_map, List.map_cons, List.map_map]
  congr 1
  · simp [← h]
  · refine List.map_congr_left fun i _ => ?_
    have hskip : (i + 1) * size = entry.length + i * size := by
      rw [h, Nat.add_mul, Nat.one_mul, Nat.add_comm]
    rw [Function.comp_apply, Nat.succ_eq_add_one, hskip, ← List.drop_drop, List.drop_left]

/-- The entries of a concatenation of entries. -/
theorem slices_flatten {size : Nat} (hsize : 0 < size) {entries : List (List α)}
    (h : ∀ e ∈ entries, e.length = size) : slices size entries.flatten = entries := by
  induction entries with
  | nil => simp [slices]
  | cons e es ih =>
    rw [List.flatten_cons, slices_append hsize (h e List.mem_cons_self),
      ih fun e' he' => h e' (List.mem_cons_of_mem _ he')]

/-- A string whose length is a multiple of the size is the concatenation of its entries. -/
theorem flatten_slices {size : Nat} (hsize : 0 < size) {xs : List α} (h : xs.length % size = 0) :
    (slices size xs).flatten = xs := by
  generalize hn : xs.length / size = n
  induction n generalizing xs with
  | zero =>
    have hlen : xs.length = 0 := by
      rw [← Nat.div_add_mod xs.length size, hn, h, Nat.mul_zero]
    simp [List.eq_nil_of_length_eq_zero hlen, slices]
  | succ n ih =>
    have hlen : xs.length = size * (n + 1) := by
      rw [← Nat.div_add_mod xs.length size, hn, h, Nat.add_zero]
    have hle : size ≤ xs.length := by
      rw [hlen]
      exact Nat.le_mul_of_pos_right size (Nat.succ_pos n)
    have hrest : (xs.drop size).length = size * n := by
      rw [List.length_drop, hlen, Nat.mul_succ, Nat.add_sub_cancel]
    have hfirst : (xs.take size).length = size := by rw [List.length_take, Nat.min_eq_left hle]
    conv_lhs => rw [← List.take_append_drop size xs]
    rw [slices_append hsize hfirst, List.flatten_cons,
      ih (by rw [hrest, Nat.mul_mod_right]) (by rw [hrest, Nat.mul_div_cancel_left n hsize]),
      List.take_append_drop]

/-! ## Joined strings -/

theorem length_intercalate_singleton (separator : α) (texts : List (List α)) :
    (List.intercalate [separator] texts).length = (texts.map List.length).sum + (texts.length - 1) := by
  induction texts with
  | nil => rfl
  | cons text texts ih =>
    cases texts with
    | nil => simp [List.intercalate]
    | cons next texts =>
      rw [List.intercalate_cons_cons, List.length_append, List.length_append, ih]
      simp only [List.map_cons, List.sum_cons, List.length_cons, List.length_nil]
      omega
