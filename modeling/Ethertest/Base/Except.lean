-- SUMMARY: Fallible computations: guards, and how a successful run of a sequence splits into its parts.
import Mathlib

/-!
# Fallible computations

The modelled functions return `Except`. A proof about a successful run peels the
sequence apart with `Except.do_ok_iff`, and reads every guard it passed with
`failIf_eq_ok`. `Except.mapM_ok_iff` does the same for a loop that collects results.
-/

variable {ε α β : Type*}

/-- Stop with an error when a condition holds. -/
def failIf (c : Prop) [Decidable c] (e : ε) : Except ε Unit :=
  if c then .error e else .ok ()

/-- Stop with an error when a value is missing. -/
def orFail (x : Option α) (e : ε) : Except ε α :=
  x.elim (.error e) .ok

variable {c : Prop} {e : ε} {a : α} {r : Except ε α}

@[simp] theorem failIf_eq_ok [Decidable c] {u : Unit} : failIf c e = .ok u ↔ ¬ c := by
  by_cases h : c <;> simp [failIf, h]

@[simp] theorem failIf_eq_error [Decidable c] {e' : ε} : failIf c e = .error e' ↔ c ∧ e = e' := by
  by_cases h : c <;> simp [failIf, h]

@[simp] theorem orFail_eq_ok {x : Option α} : orFail x e = .ok a ↔ x = some a := by
  cases x <;> simp [orFail]

theorem Except.toOption_eq_some : r.toOption = some a ↔ r = .ok a := by
  cases r <;> simp [Except.toOption]

/-- A sequence succeeds exactly when its first part does and the rest succeeds on
the first part's result. -/
theorem Except.seq_ok_iff {next : α → Except ε β} {out : β} :
    Except.bind r next = .ok out ↔ ∃ mid, r = .ok mid ∧ next mid = .ok out := by
  constructor
  · intro h
    match r, h with
    | .ok mid, h => exact ⟨mid, rfl, h⟩
  · rintro ⟨mid, rfl, h⟩
    exact h

/-- `Except.seq_ok_iff` for the `do` form of a sequence. -/
theorem Except.do_ok_iff {ε α β : Type} {r : Except ε α} {next : α → Except ε β} {out : β} :
    (r >>= next) = .ok out ↔ ∃ mid, r = .ok mid ∧ next mid = .ok out :=
  Except.seq_ok_iff

/-- A sequence fails where its first part does, or where the rest does. -/
theorem Except.do_error_iff {ε α β : Type} {r : Except ε α} {next : α → Except ε β} {e : ε} :
    (r >>= next) = .error e ↔ r = .error e ∨ ∃ mid, r = .ok mid ∧ next mid = .error e := by
  cases r with
  | error e' => simp [bind, Except.bind]
  | ok a => simp [bind, Except.bind]

/-- The value of a step that succeeds is passed on. -/
theorem Except.ok_do {ε α β : Type} (a : α) (next : α → Except ε β) : (Except.ok a >>= next) = next a := rfl

/-- The result of a step that returns nothing. -/
theorem Except.unit_ok_iff {ε : Type} {r : Except ε Unit} {p : Unit → Prop} :
    (∃ u, r = .ok u ∧ p u) ↔ r = .ok () ∧ p () :=
  ⟨fun ⟨_, h⟩ => h, fun h => ⟨(), h⟩⟩

theorem Except.mapError_eq_ok {ε ε' α : Type} {r : Except ε α} {f : ε → ε'} {a : α} :
    r.mapError f = .ok a ↔ r = .ok a := by
  cases r with
  | error e => simp [Except.mapError]
  | ok b => simp [Except.mapError]

section Loops

variable {ε α β : Type} {f : α → Except ε β}

variable {l : List α} {σ : Type}

/-- A loop succeeds exactly when every round does, with these results. -/
theorem Except.mapM_ok_iff {values : List β} :
    l.mapM f = .ok values ↔ List.Forall₂ (fun a v => f a = .ok v) l values := by
  induction l generalizing values with
  | nil => simp [pure, Except.pure, eq_comm]
  | cons a l ih =>
    simp only [List.mapM_cons, Except.do_ok_iff, ih, pure, Except.pure, Except.ok.injEq]
    constructor
    · rintro ⟨v, hv, rest, hrest, rfl⟩
      exact .cons hv hrest
    · rintro ⟨⟩
      next v rest hv hrest => exact ⟨v, hv, rest, hrest, rfl⟩

/-- A loop of checks passes exactly when every check does. -/
theorem Except.forM_eq_ok {check : α → Except ε Unit} :
    l.forM check = .ok () ↔ ∀ a ∈ l, check a = .ok () := by
  induction l with
  | nil => simp [pure, Except.pure]
  | cons a l ih =>
    change (check a >>= fun _ => l.forM check) = .ok () ↔ _
    rw [Except.do_ok_iff, Except.unit_ok_iff, List.forall_mem_cons, ← ih]

theorem Except.exists_mapM_ok (h : ∀ a ∈ l, ∃ v, f a = .ok v) : ∃ values, l.mapM f = .ok values := by
  induction l with
  | nil => exact ⟨[], rfl⟩
  | cons a l ih =>
    obtain ⟨v, hv⟩ := h a List.mem_cons_self
    obtain ⟨values, hvalues⟩ := ih fun b hb => h b (List.mem_cons_of_mem _ hb)
    exact ⟨v :: values, Except.mapM_ok_iff.mpr (.cons hv (Except.mapM_ok_iff.mp hvalues))⟩

/-- What every round of a loop keeps, the loop keeps. -/
theorem Except.foldlM_keeps {f : σ → α → Except ε σ} {P : σ → Prop} {s s' : σ}
    (hround : ∀ {a s s'}, a ∈ l → P s → f s a = .ok s' → P s') (hs : P s) (h : l.foldlM f s = .ok s') : P s' := by
  induction l generalizing s with
  | nil =>
    obtain rfl : s = s' := Except.ok.inj h
    exact hs
  | cons a l ih =>
    rw [List.foldlM_cons, Except.do_ok_iff] at h
    obtain ⟨mid, hmid, hrest⟩ := h
    exact ih (fun ha => hround (List.mem_cons_of_mem _ ha)) (hround List.mem_cons_self hs hmid) hrest

/-- A loop that succeeds passes every element of its list. -/
theorem Except.foldlM_visits {f : σ → α → Except ε σ} {a : α} {s s' : σ} (ha : a ∈ l)
    (h : l.foldlM f s = .ok s') : ∃ s₁ s₂, ∃ rest : List α, f s₁ a = .ok s₂ ∧ rest.foldlM f s₂ = .ok s' := by
  induction l generalizing s with
  | nil => cases ha
  | cons b l ih =>
    rw [List.foldlM_cons, Except.do_ok_iff] at h
    obtain ⟨mid, hround, hrest⟩ := h
    rcases List.mem_cons.mp ha with rfl | ha
    · exact ⟨s, mid, l, hround, hrest⟩
    · exact ih ha hrest

end Loops
