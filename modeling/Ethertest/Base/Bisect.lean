-- SUMMARY: Bisection by a probe that may fail, without assuming the probe monotone.
import Ethertest.Base.Except

/-!
# Bisection

`bisect` narrows an interval with a probe: a rejected middle is below the result, an accepted
one is the new upper end. The probe need not be monotone. What remains true is local: the
result is where the interval started, or the number before it was rejected.
-/

variable {ε : Type}

def bisect (probe : Nat → Except ε Bool) (low high : Nat) : Except ε Nat :=
  if low < high then
    match probe (low + (high - low) / 2) with
    | .error e => .error e
    | .ok true => bisect probe low (low + (high - low) / 2)
    | .ok false => bisect probe (low + (high - low) / 2 + 1) high
  else .ok high
termination_by high - low

variable {probe : Nat → Except ε Bool} {low high g : Nat}

/-- The result lies in the interval. -/
theorem bisect_mem (h : bisect probe low high = .ok g) (hle : low ≤ high) : low ≤ g ∧ g ≤ high := by
  fun_induction bisect probe low high with
  | case1 => cases h
  | case2 low high hlt hprobe ih =>
    have := ih h (by omega)
    omega
  | case3 low high hlt hprobe ih =>
    have := ih h (by omega)
    omega
  | case4 low high hlt =>
    cases h
    omega

/-- Where the search moved its lower end, the number before the result was rejected. -/
theorem bisect_before (h : bisect probe low high = .ok g) (hle : low ≤ high) :
    g = low ∨ probe (g - 1) = .ok false := by
  fun_induction bisect probe low high with
  | case1 => cases h
  | case2 low high hlt hprobe ih => exact ih h (by omega)
  | case3 low high hlt hprobe ih =>
    obtain rfl | hbefore := ih h (by omega)
    · exact .inr hprobe
    · exact .inr hbefore
  | case4 low high hlt =>
    cases h
    exact .inl (by omega)

/-- The search returns its lower end zero exactly when it accepts every half on the way down. -/
theorem bisect_eq_zero :
    bisect probe 0 high = .ok 0 ↔ ∀ k, high / 2 ^ k ≠ 0 → probe (high / 2 ^ (k + 1)) = .ok true := by
  induction high using Nat.strong_induction_on with
  | _ high ih =>
    have hhalf : ∀ k, high / 2 ^ (k + 1) = high / 2 / 2 ^ k := fun k => by
      rw [pow_succ', Nat.div_div_eq_div_mul]
    by_cases hzero : high = 0
    · subst hzero
      rw [bisect]
      simp
    · have hmid : 0 + (high - 0) / 2 = high / 2 := by omega
      have hsplit : (∀ k, high / 2 ^ k ≠ 0 → probe (high / 2 ^ (k + 1)) = .ok true) ↔
          probe (high / 2) = .ok true ∧
            ∀ k, high / 2 / 2 ^ k ≠ 0 → probe (high / 2 / 2 ^ (k + 1)) = .ok true := by
        rw [← Nat.and_forall_add_one]
        simp only [pow_zero, Nat.div_one, zero_add, pow_one, hhalf, ne_eq, hzero, not_false_eq_true,
          forall_const]
      rw [hsplit, bisect, if_pos (Nat.pos_of_ne_zero hzero), hmid]
      cases hprobe : probe (high / 2) with
      | error e => simp
      | ok accepted =>
        cases accepted with
        | true => simpa using ih (high / 2) (by omega)
        | false =>
          -- a rejected half moves the lower end above zero
          have hne : bisect probe (high / 2 + 1) high ≠ .ok 0 := fun h => by
            have := bisect_mem h (by omega)
            omega
          simpa using hne
