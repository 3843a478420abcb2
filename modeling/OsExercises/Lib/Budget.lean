import OsExercises.Lib.Transition

/-!
# Runs on a budget

Some steps are idle: they may be taken any number of times, for nothing. When the others live on a weight
that only the idle ones can raise, and each by at most a constant, a run is bounded by its idle steps
(`length_le_tally`).
-/

namespace OsExercises.Transition

variable {σ α : Type*} {step : σ → α → Option σ} {idle : σ → α → Bool} {I : σ → Prop} {weight : σ → Nat}
  {s s' : σ} {a : α} {as : List α} {k : Nat}

/-- The number of idle steps in the run of `as` from `s`. -/
def tally (step : σ → α → Option σ) (idle : σ → α → Bool) : σ → List α → Nat
  | _, [] => 0
  | s, a :: as => (idle s a).toNat + ((step s a).elim 0 fun s' => tally step idle s' as)

theorem tally_cons (h : step s a = some s') :
    tally step idle s (a :: as) = (idle s a).toNat + tally step idle s' as := by
  rw [tally, h]
  rfl

theorem length_le_tally (hstep : ∀ s a s', I s → step s a = some s' → I s')
    (hweight : ∀ s a s', I s → step s a = some s' → weight s' < weight s + k * (idle s a).toNat)
    (hs : I s) (h : run step s as = some s') :
    as.length + weight s' ≤ weight s + k * tally step idle s as := by
  induction as generalizing s with
  | nil =>
    cases h
    exact Nat.le_of_eq (Nat.zero_add _)
  | cons a as ih =>
    obtain ⟨t, ht, hr⟩ := run_cons_eq_some.mp h
    have hrest := ih (hstep s a t hs ht) hr
    have hlt := hweight s a t hs ht
    rw [tally_cons ht, List.length_cons, Nat.mul_add]
    omega

end OsExercises.Transition
