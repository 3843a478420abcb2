import Mathlib.Logic.Function.Basic

/-!
# A mutex and the places of the threads

`Holder holds mutex pc`: the thread that has the mutex is the one thread at a place where it `holds`
it. A step moves one thread; it takes the mutex (`Holder.acquire`), gives it up (`Holder.release`)
or does neither (`Holder.move`). `Guards` is the half of it that remains true when a thread leaves its
critical section without giving the mutex up.
-/

namespace OsExercises

variable {T P : Type*} {holds : P → Bool} {mutex : Option T} {pc pc' : T → P}
  {t u : T} {p : P}

def Holder (holds : P → Bool) (mutex : Option T) (pc : T → P) : Prop :=
  ∀ t, mutex = some t ↔ holds (pc t) = true

namespace Holder

theorem unique (h : Holder holds mutex pc) (ht : holds (pc t) = true) (hu : holds (pc u) = true) :
    t = u := Option.some.inj (((h t).mpr ht).symm.trans ((h u).mpr hu))

theorem congr (h : Holder holds mutex pc) (hpc : ∀ u, holds (pc' u) = holds (pc u)) :
    Holder holds mutex pc' := fun u => by rw [hpc]; exact h u

variable [DecidableEq T]

theorem acquire (h : Holder holds none pc) (hp : holds p = true) :
    Holder holds (some t) (Function.update pc t p) := by
  intro u
  by_cases hut : u = t
  · subst hut
    simp [hp]
  · have hu := h u
    rw [Function.update_of_ne hut]
    constructor
    · intro heq
      exact absurd (Option.some.inj heq).symm hut
    · intro hheld
      cases hu.mpr hheld

theorem release (h : Holder holds mutex pc) (ht : holds (pc t) = true) (hp : holds p = false) :
    Holder holds none (Function.update pc t p) := by
  intro u
  by_cases hut : u = t
  · subst hut
    simp [hp]
  · rw [Function.update_of_ne hut]
    constructor
    · intro heq
      cases heq
    · intro hheld
      exact absurd (h.unique hheld ht) hut

theorem move (h : Holder holds mutex pc) (hp : holds p = holds (pc t)) :
    Holder holds mutex (Function.update pc t p) := by
  refine h.congr fun u => ?_
  by_cases hut : u = t
  · subst hut
    rw [Function.update_self, hp]
  · rw [Function.update_of_ne hut]

end Holder

/-! ### Mutexes that are not given back -/

/-- A thread in its critical section has the mutex. A thread that has it may be elsewhere. -/
def Guards (mutex : Option T) (inside : T → Bool) : Prop := ∀ t, inside t = true → mutex = some t

namespace Guards

variable {before after : T → Bool}

theorem acquire (h : Guards none before) (hothers : ∀ u, u ≠ t → after u = before u) :
    Guards (some t) after := by
  intro u hu
  by_cases hut : u = t
  · rw [hut]
  · rw [hothers u hut] at hu
    cases h u hu

theorem release (h : Guards mutex before) (ht : before t = true) (hafter : after t = false)
    (hothers : ∀ u, u ≠ t → after u = before u) : Guards none after := by
  intro u hu
  by_cases hut : u = t
  · rw [hut, hafter] at hu
    cases hu
  · rw [hothers u hut] at hu
    exact absurd (Option.some.inj ((h u hu).symm.trans (h t ht))) hut

theorem move (h : Guards mutex before) (ht : after t = true → before t = true)
    (hothers : ∀ u, u ≠ t → after u = before u) : Guards mutex after := by
  intro u hu
  by_cases hut : u = t
  · subst hut
    exact h u (ht hu)
  · rw [hothers u hut] at hu
    exact h u hu

end Guards
end OsExercises
