import OsExercises.Lib.ForLoop

/-!
# While loops

`whileLoop cond body fuel s` runs `while (cond) body` from the loop state `s`; `body` may have no
result (undefined behaviour) and `fuel` bounds the number of tests of the condition. Both show as
`none`, so a theorem with `= some _` says that the loop ends and is well defined. The unfolding
rules are `whileLoop_exit`, `whileLoop_step` and, for any number of iterations, `whileLoop_forLoop`;
`whileLoop_rec` is induction on the iterations, `whileLoop_inv` the invariant rule and `whileLoop_total`
the invariant rule with a measure.
-/

namespace OsExercises

variable {σ : Type*}

/-- `while (cond s) s = body s;` with at most `fuel` tests of the condition. -/
def whileLoop (cond : σ → Bool) (body : σ → Option σ) : Nat → σ → Option σ
  | 0, _ => none
  | fuel + 1, s => if cond s then (body s).bind (whileLoop cond body fuel) else some s

variable {cond : σ → Bool} {body : σ → Option σ} {fuel : Nat} {s t : σ}

theorem whileLoop_exit (hf : 0 < fuel) (h : cond s = false) :
    whileLoop cond body fuel s = some s := by
  obtain ⟨n, rfl⟩ := Nat.exists_eq_add_of_lt hf
  simp [whileLoop, h]

theorem whileLoop_step (h : cond s = true) (hb : body s = some t) :
    whileLoop cond body (fuel + 1) s = whileLoop cond body fuel t := by
  simp [whileLoop, h, hb]

theorem whileLoop_undefined (h : cond s = true) (hb : body s = none) :
    whileLoop cond body fuel s = none := by
  cases fuel with
  | zero => rfl
  | succ n => simp [whileLoop, h, hb]

/-- The first `n` iterations, if the condition holds before each of them. -/
theorem whileLoop_forLoop {n : Nat} (hcond : ∀ k < n, ∀ u, forLoop (fun _ => body) k s = some u → cond u = true)
    (h : forLoop (fun _ => body) n s = some t) :
    whileLoop cond body (n + fuel) s = whileLoop cond body fuel t := by
  induction n generalizing t fuel with
  | zero =>
    cases h
    rw [Nat.zero_add]
  | succ n ih =>
    obtain ⟨u, hu, ht⟩ := Option.bind_eq_some_iff.mp h
    rw [Nat.add_right_comm, Nat.add_assoc,
      ih (fun k hk => hcond k (Nat.lt_succ_of_lt hk)) hu]
    exact whileLoop_step (hcond n (Nat.lt_succ_self n) u hu) ht

/-- A relation between the states before and after the loop, by induction on the iterations. -/
theorem whileLoop_rec {R : σ → σ → Prop} (hexit : ∀ s, cond s = false → R s s)
    (hstep : ∀ s t u, cond s = true → body s = some t → R t u → R s u)
    (h : whileLoop cond body fuel s = some t) : R s t := by
  induction fuel generalizing s with
  | zero => cases h
  | succ n ih =>
    rw [whileLoop] at h
    split at h
    · next hc =>
      obtain ⟨u, hu, hr⟩ := Option.bind_eq_some_iff.1 h
      exact hstep s u t hc hu (ih hr)
    · next hc =>
      cases h
      exact hexit _ (Bool.eq_false_iff.mpr hc)

/-- What every iteration preserves holds at the exit, together with the negated condition. -/
theorem whileLoop_inv {I : σ → Prop}
    (hbody : ∀ s t, I s → cond s = true → body s = some t → I t)
    (hs : I s) (h : whileLoop cond body fuel s = some t) : I t ∧ cond t = false := by
  induction fuel generalizing s with
  | zero => cases h
  | succ n ih =>
    rw [whileLoop] at h
    split at h
    · next hc =>
      obtain ⟨u, hu, hr⟩ := Option.bind_eq_some_iff.1 h
      exact ih (hbody s u hs hc hu) hr
    · next hc =>
      cases h
      exact ⟨hs, by simpa using hc⟩

/-- A loop whose iterations keep `I` and lower the measure `μ` ends. -/
theorem whileLoop_total {I : σ → Prop} (μ : σ → Nat)
    (hbody : ∀ s, I s → cond s = true → ∃ t, body s = some t ∧ I t ∧ μ t < μ s)
    (hs : I s) (hf : μ s < fuel) :
    ∃ t, whileLoop cond body fuel s = some t ∧ I t ∧ cond t = false := by
  induction fuel generalizing s with
  | zero => omega
  | succ n ih =>
    cases hc : cond s with
    | false => exact ⟨s, whileLoop_exit (Nat.succ_pos n) hc, hs, hc⟩
    | true =>
      obtain ⟨t, ht, hI, hlt⟩ := hbody s hs hc
      obtain ⟨u, hu, hIu, hcu⟩ := ih hI (by omega)
      exact ⟨u, by rw [whileLoop_step hc ht, hu], hIu, hcu⟩

attribute [irreducible] whileLoop

end OsExercises
