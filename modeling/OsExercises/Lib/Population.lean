import Mathlib.Algebra.BigOperators.Fin
import Mathlib.Algebra.Order.BigOperators.Group.Finset
import Mathlib.Algebra.Ring.Nat
import Mathlib.Data.Fintype.Card

/-!
# Counting the threads at a place

`population P f` is the number of threads that `f` puts at a place where `P`. A step moves one thread
at a time (`population_update`).
-/

namespace OsExercises

variable {T X : Type*} [Fintype T] {P : X → Bool} {f : T → X}

def population (P : X → Bool) (f : T → X) : Nat := ∑ t, (P (f t)).toNat

theorem sum_update [DecidableEq T] {M : Type*} [AddCommMonoid M] (f : T → M) (t : T) (x : M) :
    ∑ u, Function.update f t x u + f t = ∑ u, f u + x := by
  rw [Finset.sum_update_of_mem (Finset.mem_univ t), ← Finset.add_sum_erase _ f (Finset.mem_univ t),
    Finset.sdiff_singleton_eq_erase, add_comm _ (f t), add_comm x, add_assoc]

theorem population_update [DecidableEq T] (P : X → Bool) (f : T → X) (t : T) (x : X) :
    population P (Function.update f t x) + (P (f t)).toNat = population P f + (P x).toNat := by
  have hfun : (fun u => (P (Function.update f t x u)).toNat) =
      Function.update (fun u => (P (f u)).toNat) t (P x).toNat := by
    funext u
    exact Function.apply_update (fun _ y => (P y).toNat) f t x u
  unfold population
  rw [hfun]
  exact sum_update (fun u => (P (f u)).toNat) t (P x).toNat

theorem population_eq_zero : population P f = 0 ↔ ∀ t, P (f t) = false := by
  simp [population, Finset.sum_eq_zero_iff]

theorem population_eq_card : population P f = (Finset.univ.filter fun t => P (f t) = true).card := by
  rw [Finset.card_filter]
  refine Finset.sum_congr rfl ?_
  intro t _
  cases P (f t) <;> rfl

theorem population_lt_card {t : T} (ht : P (f t) = false) : population P f < Fintype.card T := by
  rw [population_eq_card]
  refine Finset.card_lt_univ_of_notMem (x := t) ?_
  simp [ht]

/-- Of finitely many natural numbers that add up to one, one is one and the others are zero. -/
theorem exists_eq_one_of_sum_eq_one {f : T → Nat} (h : ∑ t, f t = 1) :
    ∃ t, f t = 1 ∧ ∀ u, u ≠ t → f u = 0 := by
  classical
  obtain ⟨t, -, ht⟩ : ∃ t ∈ Finset.univ, f t ≠ 0 := Finset.exists_ne_zero_of_sum_ne_zero (by omega)
  have hsplit := Finset.add_sum_erase Finset.univ f (Finset.mem_univ t)
  have hrest : ∑ u ∈ Finset.univ.erase t, f u = 0 := by omega
  refine ⟨t, by omega, ?_⟩
  intro u hu
  exact Finset.sum_eq_zero_iff.mp hrest u (Finset.mem_erase.mpr ⟨hu, Finset.mem_univ u⟩)

end OsExercises
