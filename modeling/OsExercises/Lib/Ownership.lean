import Mathlib.Logic.Function.Basic

/-!
# What is held where

Each place holds a token or `null`. As long as no token is in two places (`Apart`), emptying a place
takes its token from what is held, and filling one adds a token that nobody holds.
-/

namespace OsExercises

variable {K V : Type*} {null v w : V} {f : K → V} {k : K}

def Held (null : V) (f : K → V) (v : V) : Prop := v ≠ null ∧ ∃ k, f k = v

/-- No token is in two places. -/
def Apart (null : V) (f : K → V) : Prop := ∀ k l, f k = f l → f k ≠ null → k = l

theorem held_self (hk : f k ≠ null) : Held null f (f k) := ⟨hk, k, rfl⟩

theorem not_held_of_empty (h : ∀ k, f k = null) : ¬ Held null f v := by
  rintro ⟨hv, k, rfl⟩
  exact hv (h k)

theorem apart_of_empty (h : ∀ k, f k = null) : Apart null f := fun k _ _ hk => absurd (h k) hk

variable [DecidableEq K]

theorem Apart.clear (h : Apart null f) : Apart null (Function.update f k null) := by
  intro a b hab ha
  have hak : a ≠ k := by
    rintro rfl
    exact ha (Function.update_self ..)
  have hbk : b ≠ k := by
    rintro rfl
    exact ha (hab.trans (Function.update_self ..))
  rw [Function.update_of_ne hak, Function.update_of_ne hbk] at hab
  rw [Function.update_of_ne hak] at ha
  exact h a b hab ha

theorem Apart.fill (h : Apart null f) (hv : ¬ Held null f v) : Apart null (Function.update f k v) := by
  intro a b hab ha
  by_cases hak : a = k <;> by_cases hbk : b = k
  · exact hak.trans hbk.symm
  · subst hak
    rw [Function.update_self] at hab ha
    rw [Function.update_of_ne hbk] at hab
    exact absurd ⟨ha, b, hab.symm⟩ hv
  · subst hbk
    rw [Function.update_of_ne hak] at hab ha
    rw [Function.update_self] at hab
    exact absurd ⟨hab ▸ ha, a, hab⟩ hv
  · rw [Function.update_of_ne hak] at hab ha
    rw [Function.update_of_ne hbk] at hab
    exact h a b hab ha

theorem held_clear (h : Apart null f) :
    Held null (Function.update f k null) v ↔ Held null f v ∧ v ≠ f k := by
  constructor
  · rintro ⟨hv, a, rfl⟩
    have hak : a ≠ k := by
      rintro rfl
      exact hv (Function.update_self ..)
    rw [Function.update_of_ne hak] at hv ⊢
    exact ⟨held_self hv, fun heq => hak (h a k heq hv)⟩
  · rintro ⟨⟨hv, a, rfl⟩, hne⟩
    have hak : a ≠ k := by
      rintro rfl
      exact hne rfl
    exact ⟨hv, a, Function.update_of_ne hak ..⟩

theorem held_fill (hk : f k = null) (hv : v ≠ null) :
    Held null (Function.update f k v) w ↔ w = v ∨ Held null f w := by
  constructor
  · rintro ⟨hw, a, rfl⟩
    by_cases hak : a = k
    · subst hak
      exact .inl (Function.update_self ..)
    · rw [Function.update_of_ne hak] at hw ⊢
      exact .inr (held_self hw)
  · rintro (rfl | ⟨hw, a, rfl⟩)
    · exact ⟨hv, k, Function.update_self ..⟩
    · have hak : a ≠ k := by
        rintro rfl
        exact hw hk
      exact ⟨hw, a, Function.update_of_ne hak ..⟩

end OsExercises
