import OsExercises.Lib.Mutex
import OsExercises.Lib.Transition

/-!
# The spin mutex

`c_mutex_lock` and `c_mutex_unlock` of `src/exercise09/task_1/task_1.c` for any number of threads. A
thread is in one of the two functions, between them (it has the mutex) or outside; it calls
`c_mutex_unlock` only when it has the mutex. The operations on the flag are atomic.
-/

namespace OsExercises.SpinMutex

structure CMutex where
  locked : Bool
deriving DecidableEq

def cMutexInit : CMutex := ⟨false⟩

/-- The value before and the mutex after. -/
def atomicFlagTestAndSet (mutex : CMutex) : Bool × CMutex := (mutex.locked, ⟨true⟩)

def atomicFlagClear (_ : CMutex) : CMutex := ⟨false⟩

/-- Where a thread is. -/
inductive Place where
  | outside
  /-- In `c_mutex_lock` before `atomic_flag_test_and_set`. -/
  | testing
  /-- Before `sched_yield`. -/
  | yielding
  /-- `c_mutex_lock` has returned. -/
  | inside
  /-- In `c_mutex_unlock` before `atomic_flag_clear`. -/
  | clearing
deriving DecidableEq

/-- Between lock and unlock. -/
def Place.holds : Place → Bool
  | .inside | .clearing => true
  | _ => false

structure System (T : Type*) where
  mutex : CMutex
  place : T → Place

inductive Event (T : Type*) where
  /-- `t` calls `c_mutex_lock`. -/
  | lock (t : T)
  | testAndSet (t : T)
  | schedYield (t : T)
  /-- `t` calls `c_mutex_unlock`. -/
  | unlock (t : T)
  | clear (t : T)

namespace System

variable {T : Type*}

def start (T : Type*) : System T := ⟨cMutexInit, fun _ => .outside⟩

variable [DecidableEq T]

def go (σ : System T) (t : T) (p : Place) : T → Place := Function.update σ.place t p

def step (σ : System T) : Event T → Option (System T)
  | .lock t =>
    match σ.place t with
    | .outside => some { σ with place := σ.go t .testing }
    | _ => none
  | .testAndSet t =>
    match σ.place t with
    | .testing =>
      let r := atomicFlagTestAndSet σ.mutex
      some ⟨r.2, σ.go t (if r.1 then .yielding else .inside)⟩
    | _ => none
  | .schedYield t =>
    match σ.place t with
    | .yielding => some { σ with place := σ.go t .testing }
    | _ => none
  | .unlock t =>
    match σ.place t with
    | .inside => some { σ with place := σ.go t .clearing }
    | _ => none
  | .clear t =>
    match σ.place t with
    | .clearing => some ⟨atomicFlagClear σ.mutex, σ.go t .outside⟩
    | _ => none

/-- The outcomes of the steps. -/
inductive Step (σ : System T) : Event T → System T → Prop
  | lock {t : T} (ht : σ.place t = .outside) : Step σ (.lock t) { σ with place := σ.go t .testing }
  | taken {t : T} (ht : σ.place t = .testing) (hfree : σ.mutex.locked = false) :
    Step σ (.testAndSet t) ⟨⟨true⟩, σ.go t .inside⟩
  | missed {t : T} (ht : σ.place t = .testing) (hlocked : σ.mutex.locked = true) :
    Step σ (.testAndSet t) ⟨⟨true⟩, σ.go t .yielding⟩
  | schedYield {t : T} (ht : σ.place t = .yielding) :
    Step σ (.schedYield t) { σ with place := σ.go t .testing }
  | unlock {t : T} (ht : σ.place t = .inside) :
    Step σ (.unlock t) { σ with place := σ.go t .clearing }
  | clear {t : T} (ht : σ.place t = .clearing) : Step σ (.clear t) ⟨⟨false⟩, σ.go t .outside⟩

theorem step_cases {σ σ' : System T} {e : Event T} (h : σ.step e = some σ') : Step σ e σ' := by
  cases e with
  | lock t =>
    simp only [step] at h
    split at h <;> cases h
    exact .lock (by assumption)
  | testAndSet t =>
    simp only [step] at h
    split at h <;> cases h
    by_cases hlocked : (atomicFlagTestAndSet σ.mutex).1 = true
    · rw [if_pos hlocked]
      exact .missed (by assumption) hlocked
    · rw [if_neg hlocked]
      exact .taken (by assumption) (Bool.eq_false_iff.mpr hlocked)
  | schedYield t =>
    simp only [step] at h
    split at h <;> cases h
    exact .schedYield (by assumption)
  | unlock t =>
    simp only [step] at h
    split at h <;> cases h
    exact .unlock (by assumption)
  | clear t =>
    simp only [step] at h
    split at h <;> cases h
    exact .clear (by assumption)

end System

variable {T : Type*} {σ σ' : System T}

/-! ### Mutual exclusion -/

/-- The flag is set if some thread has the mutex, and then only one has it. -/
def Inv (σ : System T) : Prop :=
  ∃ owner, Holder Place.holds owner σ.place ∧ σ.mutex.locked = owner.isSome

theorem Inv.start : Inv (System.start T) := by
  refine ⟨none, fun t => ?_, rfl⟩
  constructor
  · intro h
    cases h
  · intro h
    cases h

theorem Inv.step [DecidableEq T] {e : Event T} (h : Inv σ) (hs : σ.step e = some σ') : Inv σ' := by
  obtain ⟨owner, hholder, hlocked⟩ := h
  cases System.step_cases hs with
  | lock ht => exact ⟨owner, hholder.move (by rw [ht]; rfl), hlocked⟩
  | @taken t ht hfree =>
    obtain rfl : owner = none := by
      cases owner with
      | none => rfl
      | some u => cases hfree.symm.trans hlocked
    exact ⟨some t, hholder.acquire rfl, rfl⟩
  | missed ht hset =>
    refine ⟨owner, hholder.move (by rw [ht]; rfl), ?_⟩
    rw [← hlocked, hset]
  | schedYield ht => exact ⟨owner, hholder.move (by rw [ht]; rfl), hlocked⟩
  | unlock ht => exact ⟨owner, hholder.move (by rw [ht]; rfl), hlocked⟩
  | clear ht => exact ⟨none, hholder.release (by rw [ht]; rfl) rfl, rfl⟩

theorem Inv.unique (h : Inv σ) {t u : T} (ht : (σ.place t).holds = true)
    (hu : (σ.place u).holds = true) : t = u := by
  obtain ⟨owner, hholder, -⟩ := h
  exact hholder.unique ht hu

theorem Inv.locked_iff (h : Inv σ) : σ.mutex.locked = true ↔ ∃ t, (σ.place t).holds = true := by
  obtain ⟨owner, hholder, hlocked⟩ := h
  rw [hlocked, Option.isSome_iff_exists]
  exact exists_congr hholder

end OsExercises.SpinMutex
