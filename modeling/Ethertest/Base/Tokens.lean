-- SUMMARY: Codes of values as lists of numbers that can be read off again, and their packing into one number.
import Mathlib.Data.Nat.Log
import Mathlib.Logic.Function.Basic
import Mathlib.Tactic.Ring

/-!
# Self-delimiting codes

A code `tokens : α → List Nat` delimits its values if a list that starts with the code of a
value determines the value and what follows. Such codes combine, and a delimiting code
packed into one number is injective.
-/

namespace Tokens

variable {α β : Type}

/-- The code of a value at the front of a list determines the value and the rest. -/
def Delimits (tokens : α → List Nat) : Prop :=
  ∀ ⦃x y : α⦄ ⦃rest rest' : List Nat⦄, tokens x ++ rest = tokens y ++ rest' → x = y ∧ rest = rest'

theorem Delimits.injective {tokens : α → List Nat} (h : Delimits tokens) : Function.Injective tokens := by
  intro x y hxy
  exact (@h x y [] [] (by rw [hxy])).1

/-! ## Combinators -/

def number (n : Nat) : List Nat := [n]

theorem delimits_number : Delimits number := by
  intro x y rest rest' h
  exact List.cons.inj h

def option (tokens : α → List Nat) : Option α → List Nat
  | none => [0]
  | some x => 1 :: tokens x

theorem delimits_option {tokens : α → List Nat} (ht : Delimits tokens) : Delimits (option tokens) := by
  intro x y rest rest' h
  match x, y, h with
  | none, none, h => exact ⟨rfl, (List.cons.inj h).2⟩
  | none, some _, h => exact absurd (List.cons.inj h).1 (by simp)
  | some _, none, h => exact absurd (List.cons.inj h).1 (by simp)
  | some x, some y, h =>
    obtain ⟨rfl, hrest⟩ := ht (List.cons.inj h).2
    exact ⟨rfl, hrest⟩

/-- A list is its length followed by its items. -/
def list (tokens : α → List Nat) (l : List α) : List Nat :=
  l.length :: l.flatMap tokens

theorem delimits_list {tokens : α → List Nat} (ht : Delimits tokens) : Delimits (list tokens) := by
  intro l l' rest rest' hlist
  obtain ⟨hlength, h⟩ := List.cons.inj hlist
  clear hlist
  induction l generalizing l' with
  | nil =>
    obtain rfl := List.length_eq_zero_iff.mp hlength.symm
    exact ⟨rfl, h⟩
  | cons x l ih =>
    obtain ⟨y, l', rfl⟩ := List.exists_cons_of_length_pos (l := l') (by simp [← hlength])
    have h : tokens x ++ (l.flatMap tokens ++ rest) = tokens y ++ (l'.flatMap tokens ++ rest') := by
      simpa using h
    obtain ⟨rfl, hl⟩ := ht h
    obtain ⟨rfl, hrest⟩ := ih (by simpa using hlength) hl
    exact ⟨rfl, hrest⟩

def pair (first : α → List Nat) (second : β → List Nat) (p : α × β) : List Nat :=
  first p.1 ++ second p.2

theorem delimits_pair {first : α → List Nat} {second : β → List Nat} (h₁ : Delimits first) (h₂ : Delimits second) :
    Delimits (pair first second) := by
  rintro ⟨x₁, x₂⟩ ⟨y₁, y₂⟩ rest rest' h
  simp only [pair, List.append_assoc] at h
  obtain ⟨rfl, hsecond⟩ := h₁ h
  obtain ⟨rfl, hrest⟩ := h₂ hsecond
  exact ⟨rfl, hrest⟩

theorem Delimits.comp {tokens : α → List Nat} (ht : Delimits tokens) {f : β → α} (hf : Function.Injective f) :
    Delimits fun x => tokens (f x) := by
  intro x y rest rest' h
  obtain ⟨hxy, hrest⟩ := ht h
  exact ⟨hf hxy, hrest⟩

/-! ## Packing -/

/-- Put one number in front of a packed list. The trailing zeros give the width of the
number. -/
def push (x packed : Nat) : Nat :=
  let width := Nat.log2 x + 1
  2 ^ width * (2 * (packed * 2 ^ width + x) + 1)

/-- Pack a list into one number. -/
def pack : List Nat → Nat
  | [] => 0
  | x :: l => push x (pack l)

theorem two_pow_mul_odd {a b m n : Nat} (h : 2 ^ a * (2 * m + 1) = 2 ^ b * (2 * n + 1)) : a = b ∧ m = n := by
  induction a generalizing b with
  | zero =>
    cases b with
    | zero => exact ⟨rfl, by omega⟩
    | succ b =>
      rw [pow_succ, mul_comm (2 ^ b), mul_assoc] at h
      omega
  | succ a ih =>
    cases b with
    | zero =>
      rw [pow_succ, mul_comm (2 ^ a), mul_assoc] at h
      omega
    | succ b =>
      rw [pow_succ, pow_succ, mul_comm (2 ^ a), mul_comm (2 ^ b), mul_assoc, mul_assoc] at h
      obtain ⟨rfl, hmn⟩ := ih (Nat.eq_of_mul_eq_mul_left (by norm_num) h)
      exact ⟨rfl, hmn⟩

theorem push_inj {x y p q : Nat} (h : push x p = push y q) : x = y ∧ p = q := by
  obtain ⟨hwidth, h⟩ := two_pow_mul_odd h
  have hx : x < 2 ^ (Nat.log2 x + 1) := Nat.lt_log2_self
  have hy : y < 2 ^ (Nat.log2 y + 1) := Nat.lt_log2_self
  rw [← hwidth] at h hy
  have hpos : 0 < 2 ^ (Nat.log2 x + 1) := Nat.two_pow_pos _
  constructor
  · have := congrArg (· % 2 ^ (Nat.log2 x + 1)) h
    simpa [Nat.mul_add_mod_self_right, Nat.mod_eq_of_lt hx, Nat.mod_eq_of_lt hy] using this
  · have := congrArg (· / 2 ^ (Nat.log2 x + 1)) h
    simpa [Nat.mul_add_div, Nat.mul_comm _ (2 ^ (Nat.log2 x + 1)), Nat.div_eq_of_lt hx, Nat.div_eq_of_lt hy,
      hpos] using this

theorem push_ne_zero (x p : Nat) : push x p ≠ 0 := by
  simp [push]

theorem pack_injective : Function.Injective pack := by
  intro l l' h
  induction l generalizing l' with
  | nil =>
    cases l' with
    | nil => rfl
    | cons y l' => exact absurd h.symm (push_ne_zero _ _)
  | cons x l ih =>
    cases l' with
    | nil => exact absurd h (push_ne_zero _ _)
    | cons y l' =>
      obtain ⟨rfl, hl⟩ := push_inj h
      rw [ih hl]

end Tokens
