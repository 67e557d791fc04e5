-- SUMMARY: Procedures of atomic steps that are interrupted and started again.
import Mathlib.Data.List.Basic

/-!
# Interrupted procedures

A procedure computes a list of atomic steps from the state it starts in. It can be
interrupted between two of them, and is then started anew from the state it left. A
procedure is restartable if an interruption changes neither its plan nor, when the steps
already taken are taken again, the state; it then ends where an uninterrupted run ends.
-/

namespace Interrupt

variable {S : Type}

/-- Take the steps in order. -/
def run (steps : List (S → S)) (s : S) : S := steps.foldl (fun s step => step s) s

@[simp] theorem run_nil (s : S) : run [] s = s := rfl

@[simp] theorem run_cons (step : S → S) (steps : List (S → S)) (s : S) :
    run (step :: steps) s = run steps (step s) := rfl

theorem run_append (steps steps' : List (S → S)) (s : S) : run (steps ++ steps') s = run steps' (run steps s) :=
  List.foldl_append

variable (plan : S → List (S → S))

/-- The state after the first `j` steps. -/
def after (s : S) (j : Nat) : S := run ((plan s).take j) s

/-- The states that interrupted runs leave, one started after the other. -/
inductive Attempts : S → S → Prop where
  | start (s : S) : Attempts s s
  | interrupted {s t : S} (h : Attempts s t) (j : Nat) (hj : j < (plan t).length) : Attempts s (after plan t j)

/-- An interruption does not change the plan, and the steps taken can be taken again. -/
structure Restartable : Prop where
  plan_after : ∀ s j, j < (plan s).length → plan (after plan s j) = plan s
  again : ∀ s j, j < (plan s).length → run ((plan s).take j) (after plan s j) = after plan s j

variable {plan}

/-- One interruption does not change where the procedure ends. -/
theorem Restartable.run_after (h : Restartable plan) {s : S} {j : Nat} (hj : j < (plan s).length) :
    run (plan (after plan s j)) (after plan s j) = run (plan s) s := by
  have hsplit := run_append ((plan s).take j) ((plan s).drop j)
  simp only [List.take_append_drop] at hsplit
  rw [h.plan_after s j hj, hsplit, h.again s j hj, hsplit]
  rfl

/-- Any number of interruptions leaves the plan and the end of a run as they were. -/
theorem Restartable.attempts (h : Restartable plan) {s t : S} (hattempts : Attempts plan s t) :
    plan t = plan s ∧ run (plan t) t = run (plan s) s := by
  induction hattempts with
  | start => exact ⟨rfl, rfl⟩
  | interrupted _ j hj ih =>
    exact ⟨(h.plan_after _ j hj).trans ih.1, (h.run_after hj).trans ih.2⟩

/-- A procedure without steps is not interrupted. -/
theorem Attempts.eq_of_nil {s t : S} (h : Attempts plan s t) (hnil : plan s = []) : t = s := by
  induction h with
  | start => rfl
  | interrupted _ j hj ih =>
    obtain rfl := ih
    rw [hnil] at hj
    cases hj

end Interrupt
