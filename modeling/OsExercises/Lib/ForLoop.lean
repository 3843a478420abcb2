import Mathlib.Data.Option.Basic

/-!
# For loops

`forLoop body n s` runs `for (i = 0; i < n; ++i) body` from the state `s`; `none` is undefined behaviour.
-/

namespace OsExercises

variable {σ : Type*}

def forLoop (body : Nat → σ → Option σ) : Nat → σ → Option σ
  | 0, s => some s
  | n + 1, s => (forLoop body n s).bind (body n)

/-- The invariant rule: `I i` holds before the iteration `i`. -/
theorem forLoop_inv {body : Nat → σ → Option σ} {I : Nat → σ → Prop} {n : Nat} {s : σ} (hs : I 0 s)
    (hbody : ∀ i < n, ∀ s, I i s → ∃ s', body i s = some s' ∧ I (i + 1) s') :
    ∃ s', forLoop body n s = some s' ∧ I n s' := by
  induction n with
  | zero => exact ⟨s, rfl, hs⟩
  | succ n ih =>
    obtain ⟨s', hs', hI⟩ := ih fun i hi => hbody i (Nat.lt_succ_of_lt hi)
    obtain ⟨s'', hs'', hI'⟩ := hbody n (Nat.lt_succ_self n) s' hI
    exact ⟨s'', by rw [forLoop, hs']; exact hs'', hI'⟩

end OsExercises
