import OsExercises.Lib.Transition

/-!
# Simulations

Each step of the first system is matched by some steps of the second one, perhaps none, so that the
states stay related. A run of the first system is then one of the second, as far as the relation tells.
Two systems in lockstep have the same runs (`run_rel_of_meets`).
-/

namespace OsExercises.Transition

variable {σ τ α β : Type*} {step : σ → α → Option σ} {step' : τ → β → Option τ} {R : σ → τ → Prop}
  {s s' : σ} {t : τ} {as : List α}

theorem reaches_of_simulation
    (hstep : ∀ s a s' t, R s t → step s a = some s' → ∃ t', Reaches step' t t' ∧ R s' t')
    (h : R s t) (hr : run step s as = some s') : ∃ t', Reaches step' t t' ∧ R s' t' := by
  induction as generalizing s t with
  | nil => cases hr; exact ⟨t, .refl, h⟩
  | cons a as ih =>
    obtain ⟨u, hu, hr⟩ := run_cons_eq_some.1 hr
    obtain ⟨t', ht, h'⟩ := hstep s a u t h hu
    obtain ⟨t'', ht', h''⟩ := ih h' hr
    exact ⟨t'', ht.trans ht', h''⟩

theorem Reaches.single {b : β} {t' : τ} (h : step' t b = some t') : Reaches step' t t' := .head h .refl

/-- Two systems with the same labels, in lockstep: each step is enabled in both or in neither. -/
theorem run_rel_of_meets {step' : τ → α → Option τ} {C : σ → α → Prop}
    (hstep : ∀ s t a, R s t → C s a → Option.Rel R (step s a) (step' t a)) (h : R s t)
    (hC : Meets step C s as) : Option.Rel R (run step s as) (run step' t as) := by
  induction as generalizing s t with
  | nil => exact .some h
  | cons a as ih =>
    have hrel := hstep s t a h hC.head
    rw [run, run]
    generalize hs : step s a = x at hrel ⊢
    generalize step' t a = y at hrel ⊢
    cases hrel with
    | none => exact .none
    | some hR => exact ih hR (hC.tail hs)

end OsExercises.Transition
