import OsExercises.Lib.CInt
import OsExercises.Lib.Mutex
import OsExercises.Lib.Transition

/-!
# A counter shared by all threads

`src/exercise06/task_1/task_1_mutex.c` and `src/exercise06/task_1/task_1_atomic.c` for any number of threads
and iterations. Under the mutex `counter += 73` and `counter -= 71` are a read and a write of their own,
between which any other thread may run; they have no result when the `int` overflows. The atomic operations
are one step and wrap. `pthread_create` and `pthread_join` may fail; when `main` returns, all threads end.
-/

namespace OsExercises.Counter

def NUM_THREADS : Nat := 500

/-- The iterations of each thread. -/
def ITERATIONS : Nat := 50000

def EXIT_SUCCESS : Int := 0
def EXIT_FAILURE : Int := 1

inductive Variant where
  | mutex
  | atomic
deriving DecidableEq

/-- What `main` returns after it has printed: `task_1_mutex.c` reports a failure there, too. -/
def Variant.status : Variant → Int
  | .mutex => EXIT_FAILURE
  | .atomic => EXIT_SUCCESS

/-- Where a thread is in `thread_function`, in the iteration `i`. -/
inductive Pc where
  /-- Not created. -/
  | unstarted
  /-- Before `i < 50000`. -/
  | testing (i : Nat)
  /-- At `pthread_mutex_lock`. -/
  | locking (i : Nat)
  /-- Holds the mutex, before it reads `counter`. -/
  | loading (i : Nat)
  /-- Holds the mutex, before it writes `v` to `counter`. -/
  | storing (i : Nat) (v : Int)
  /-- At `pthread_mutex_unlock`. -/
  | unlocking (i : Nat)
  /-- Before the atomic operation. -/
  | adding (i : Nat)
  | finished
deriving DecidableEq

def Pc.holds : Pc → Bool
  | .loading _ | .storing _ _ | .unlocking _ => true
  | _ => false

inductive Main where
  | creating (i : Nat)
  | joining (i : Nat)
  | exited (status : Int) (printed : Option Int)
deriving DecidableEq

/-- The first step of an iteration. -/
def Variant.enter : Variant → Nat → Pc
  | .mutex => .locking
  | .atomic => .adding

/-- The new value of the `int`. -/
def update? (i : Nat) (counter : Int) : Option Int :=
  if i % 2 = 0 then intAdd? counter 73 else intSub? counter 71

/-- `atomic_fetch_add`, `atomic_fetch_sub` -/
def atomicUpdate (i : Nat) (counter : Int) : Int :=
  toInt (if i % 2 = 0 then counter + 73 else counter - 71)

structure System (n : Nat) where
  counter : Int
  mutex : Option (Fin n)
  main : Main
  pc : Fin n → Pc

inductive Event (n : Nat) where
  /-- `ok` says whether `pthread_create` or `pthread_join` succeeds. -/
  | main (ok : Bool)
  | thread (t : Fin n)
deriving DecidableEq

namespace System

variable {n : Nat}

def start (n : Nat) : System n := ⟨0, none, .creating 0, fun _ => .unstarted⟩

def go (σ : System n) (t : Fin n) (p : Pc) : Fin n → Pc := Function.update σ.pc t p

def stepMain (v : Variant) (σ : System n) (ok : Bool) : Option (System n) :=
  match σ.main with
  | .creating i =>
    if h : i < n then
      if ok then some { σ with pc := σ.go ⟨i, h⟩ (.testing 0), main := .creating (i + 1) }
      else some { σ with main := .exited EXIT_FAILURE none }
    else some { σ with main := .joining 0 }
  | .joining i =>
    if h : i < n then
      if σ.pc ⟨i, h⟩ = .finished then
        if ok then some { σ with main := .joining (i + 1) }
        else some { σ with main := .exited EXIT_FAILURE none }
      else none
    else some { σ with main := .exited v.status (some σ.counter) }
  | .exited _ _ => none

def stepThread (v : Variant) (m : Nat) (σ : System n) (t : Fin n) : Option (System n) :=
  match σ.pc t with
  | .testing i => some { σ with pc := σ.go t (if i < m then v.enter i else .finished) }
  | .locking i => if σ.mutex = none then some { σ with mutex := some t, pc := σ.go t (.loading i) } else none
  | .loading i => (update? i σ.counter).map fun x => { σ with pc := σ.go t (.storing i x) }
  | .storing i x => some { σ with counter := x, pc := σ.go t (.unlocking i) }
  | .unlocking i => some { σ with mutex := none, pc := σ.go t (.testing (i + 1)) }
  | .adding i => some { σ with counter := atomicUpdate i σ.counter, pc := σ.go t (.testing (i + 1)) }
  | .unstarted | .finished => none

/-- `m` is the number of iterations. -/
def step (v : Variant) (m : Nat) (σ : System n) : Event n → Option (System n)
  | .main ok => σ.stepMain v ok
  | .thread t =>
    match σ.main with
    | .exited _ _ => none
    | _ => σ.stepThread v m t

/-! ### What each step does -/

inductive Step (v : Variant) (m : Nat) (σ : System n) : Event n → System n → Prop
  | create {i : Nat} (hm : σ.main = .creating i) (hi : i < n) :
    Step v m σ (.main true) { σ with pc := σ.go ⟨i, hi⟩ (.testing 0), main := .creating (i + 1) }
  | created {i : Nat} {ok : Bool} (hm : σ.main = .creating i) (hi : ¬ i < n) :
    Step v m σ (.main ok) { σ with main := .joining 0 }
  | join {i : Nat} (hm : σ.main = .joining i) (hi : i < n) (hpc : σ.pc ⟨i, hi⟩ = .finished) :
    Step v m σ (.main true) { σ with main := .joining (i + 1) }
  | createFails {i : Nat} (hm : σ.main = .creating i) (hi : i < n) :
    Step v m σ (.main false) { σ with main := .exited EXIT_FAILURE none }
  | joinFails {i : Nat} (hm : σ.main = .joining i) (hi : i < n) (hpc : σ.pc ⟨i, hi⟩ = .finished) :
    Step v m σ (.main false) { σ with main := .exited EXIT_FAILURE none }
  | print {i : Nat} {ok : Bool} (hm : σ.main = .joining i) (hi : ¬ i < n) :
    Step v m σ (.main ok) { σ with main := .exited v.status (some σ.counter) }
  | enter {t : Fin n} {i : Nat} (hm : ∀ s p, σ.main ≠ .exited s p) (hpc : σ.pc t = .testing i) (hi : i < m) :
    Step v m σ (.thread t) { σ with pc := σ.go t (v.enter i) }
  | finish {t : Fin n} {i : Nat} (hm : ∀ s p, σ.main ≠ .exited s p) (hpc : σ.pc t = .testing i)
    (hi : ¬ i < m) : Step v m σ (.thread t) { σ with pc := σ.go t .finished }
  | lock {t : Fin n} {i : Nat} (hm : ∀ s p, σ.main ≠ .exited s p) (hpc : σ.pc t = .locking i)
    (hfree : σ.mutex = none) : Step v m σ (.thread t) { σ with mutex := some t, pc := σ.go t (.loading i) }
  | load {t : Fin n} {i : Nat} {x : Int} (hm : ∀ s p, σ.main ≠ .exited s p) (hpc : σ.pc t = .loading i)
    (hx : update? i σ.counter = some x) : Step v m σ (.thread t) { σ with pc := σ.go t (.storing i x) }
  | store {t : Fin n} {i : Nat} {x : Int} (hm : ∀ s p, σ.main ≠ .exited s p) (hpc : σ.pc t = .storing i x) :
    Step v m σ (.thread t) { σ with counter := x, pc := σ.go t (.unlocking i) }
  | unlock {t : Fin n} {i : Nat} (hm : ∀ s p, σ.main ≠ .exited s p) (hpc : σ.pc t = .unlocking i) :
    Step v m σ (.thread t) { σ with mutex := none, pc := σ.go t (.testing (i + 1)) }
  | add {t : Fin n} {i : Nat} (hm : ∀ s p, σ.main ≠ .exited s p) (hpc : σ.pc t = .adding i) :
    Step v m σ (.thread t)
      { σ with counter := atomicUpdate i σ.counter, pc := σ.go t (.testing (i + 1)) }

variable {v : Variant} {m : Nat} {σ σ' : System n} {e : Event n}

theorem step_thread (hm : ∀ s p, σ.main ≠ .exited s p) (t : Fin n) :
    σ.step v m (.thread t) = σ.stepThread v m t := by
  unfold step
  cases hmain : σ.main with
  | exited s p => exact absurd hmain (hm s p)
  | creating | joining => rfl

theorem step_cases (h : σ.step v m e = some σ') : Step v m σ e σ' := by
  cases e with
  | main ok =>
    simp only [step, stepMain] at h
    split at h
    · next i hm =>
      split at h
      · next hi =>
        cases ok <;> cases h
        · exact .createFails hm hi
        · exact .create hm hi
      · next hi =>
        cases h
        exact .created hm hi
    · next i hm =>
      split at h
      · next hi =>
        split at h
        · next hpc =>
          cases ok <;> cases h
          · exact .joinFails hm hi hpc
          · exact .join hm hi hpc
        · cases h
      · next hi =>
        cases h
        exact .print hm hi
    · cases h
  | thread t =>
    have hm : ∀ s p, σ.main ≠ .exited s p := by
      intro s p hm
      simp only [step, hm] at h
      cases h
    rw [step_thread hm] at h
    cases hpc : σ.pc t <;> simp only [stepThread, hpc] at h
    case testing i =>
      split at h <;> cases h
      · next hi => exact .enter hm hpc hi
      · next hi => exact .finish hm hpc hi
    case locking i =>
      split at h <;> cases h
      next hfree => exact .lock hm hpc hfree
    case loading i =>
      obtain ⟨x, hx, rfl⟩ := Option.map_eq_some_iff.mp h
      exact .load hm hpc hx
    case storing i x =>
      cases h
      exact .store hm hpc
    case unlocking i =>
      cases h
      exact .unlock hm hpc
    case adding i =>
      cases h
      exact .add hm hpc
    all_goals cases h

end System
end OsExercises.Counter
