import OsExercises.Lib.CInt
import OsExercises.Lib.Transition
import Mathlib.Logic.Function.Basic

/-!
# The barrier

`src/exercise09/task_3/my_pthread_barrier.c` under any scheduler. A thread is in one of the places
of `my_pthread_barrier_wait` (`Pc`); what it does between taking and giving up `barrier_mutex` is
split into steps, so that the steps of other threads may come between any two of them.
`pthread_cond_wait` gives up the mutex and goes to sleep in one step, is woken by the broadcast or
for no reason (`wake`), and takes the mutex again. `generation` is an `int` that is read as wrapping.
`History` is not part of the program: it records which call was counted in which generation.
-/

namespace OsExercises.Barrier

def MY_PTHREAD_BARRIER_SERIAL_THREAD : Int := -1

/-- `my_pthread_barrier_t` without its mutex and condition variables. -/
structure MyPthreadBarrier where
  maxThreads : Int
  waitingThreads : Int
  generation : Int
deriving DecidableEq

/-- The results of `pthread_mutex_init` and of the two calls of `pthread_cond_init`. -/
structure InitResults where
  mutex : Int
  waitingFullCond : Int
  nextGenCond : Int

/-- `none` is a `NULL` pointer; the contents after the call and the returned value. -/
def myPthreadBarrierInit (barrier : Option MyPthreadBarrier) (count : Int) (res : InitResults) :
    Option MyPthreadBarrier × Int :=
  if barrier = none then (none, -1)
  else if count < 1 then (barrier, -4)
  else
    let b : MyPthreadBarrier := { waitingThreads := 0, maxThreads := count, generation := 0 }
    if res.mutex < 0 then (some b, -2)
    else if res.waitingFullCond < 0 then (some b, -3)
    else if res.nextGenCond < 0 then (some b, -3)
    else (some b, 0)

/-- Where a thread is in `my_pthread_barrier_wait`, with the value of its variable `generation`. -/
inductive Pc where
  | outside
  /-- At `pthread_mutex_lock`. -/
  | locking
  /-- Holds the mutex, before it counts itself. -/
  | entered
  /-- Holds the mutex, at the condition of the `while` loop. -/
  | testing (generation : Int)
  /-- In `pthread_cond_wait`, not woken. -/
  | sleeping (generation : Int)
  /-- In `pthread_cond_wait`, woken, about to take the mutex again. -/
  | woken (generation : Int)
  /-- Holds the mutex, before `pthread_mutex_unlock` and `return r`. -/
  | unlocking (r : Int)
deriving DecidableEq

/-- A call: the thread and the how manieth of its calls it is. -/
abbrev CallId (T : Type*) := T × Nat

/-- What happened so far. -/
structure History (T : Type*) where
  /-- The calls each thread has made. -/
  calls : T → Nat
  /-- The generations completed before the thread's last call was counted. -/
  arrivedIn : T → Nat
  /-- The calls counted in the current generation, the last one first. -/
  current : List (CallId T)
  /-- The calls counted in the completed generations, the last one first. -/
  rounds : List (List (CallId T))
  /-- The calls that returned, with what they returned. -/
  results : List (CallId T × Int)

namespace History

variable {T : Type*} [DecidableEq T] (H : History T) (t : T)

def callOf {T : Type*} (H : History T) (t : T) : CallId T := (t, H.calls t)

def called : History T := { H with calls := Function.update H.calls t (H.calls t + 1) }

def counted : History T := { H with
  arrivedIn := Function.update H.arrivedIn t H.rounds.length
  current := H.callOf t :: H.current }

/-- The call of `t` completes the current generation. -/
def completed : History T := { H with
  arrivedIn := Function.update H.arrivedIn t H.rounds.length
  current := []
  rounds := (H.callOf t :: H.current) :: H.rounds }

def returned {T : Type*} (H : History T) (t : T) (r : Int) : History T :=
  { H with results := (H.callOf t, r) :: H.results }

end History

structure System (T : Type*) where
  barrier : MyPthreadBarrier
  mutex : Option T
  pc : T → Pc
  history : History T

inductive Event (T : Type*) where
  | call (t : T)
  | lock (t : T)
  /-- The thread counts itself; the last one starts the next generation and wakes the others. -/
  | arrive (t : T)
  /-- The condition of the loop: go to sleep or leave. -/
  | test (t : T)
  /-- A spurious wake-up. -/
  | wake (t : T)
  | relock (t : T)
  | unlock (t : T)

def Event.spurious {T : Type*} : Event T → Bool
  | .wake _ => true
  | _ => false

/-- `pthread_cond_broadcast` -/
def Pc.broadcast : Pc → Pc
  | .sleeping g => .woken g
  | p => p

namespace System

variable {T : Type*} [DecidableEq T]

def start (b : MyPthreadBarrier) : System T :=
  ⟨b, none, fun _ => .outside, ⟨fun _ => 0, fun _ => 0, [], [], []⟩⟩

def call (σ : System T) (t : T) : Option (System T) :=
  match σ.pc t with
  | .outside => some { σ with pc := Function.update σ.pc t .locking, history := σ.history.called t }
  | _ => none

def lock (σ : System T) (t : T) : Option (System T) :=
  match σ.pc t, σ.mutex with
  | .locking, none => some { σ with mutex := some t, pc := Function.update σ.pc t .entered }
  | _, _ => none

def arrive (σ : System T) (t : T) : Option (System T) :=
  match σ.pc t with
  | .entered =>
    let generation := σ.barrier.generation
    let waiting := toInt (σ.barrier.waitingThreads + 1)
    if waiting < σ.barrier.maxThreads then
      some { σ with
        barrier := { σ.barrier with waitingThreads := waiting }
        pc := Function.update σ.pc t (.testing generation)
        history := σ.history.counted t }
    else
      some { σ with
        barrier := { σ.barrier with waitingThreads := 0, generation := toInt (generation + 1) }
        pc := Function.update (fun u => (σ.pc u).broadcast) t (.unlocking MY_PTHREAD_BARRIER_SERIAL_THREAD)
        history := σ.history.completed t }
  | _ => none

def test (σ : System T) (t : T) : Option (System T) :=
  match σ.pc t with
  | .testing g =>
    if g = σ.barrier.generation ∧ σ.barrier.waitingThreads < σ.barrier.maxThreads then
      some { σ with mutex := none, pc := Function.update σ.pc t (.sleeping g) }
    else some { σ with pc := Function.update σ.pc t (.unlocking 0) }
  | _ => none

def wake (σ : System T) (t : T) : Option (System T) :=
  match σ.pc t with
  | .sleeping g => some { σ with pc := Function.update σ.pc t (.woken g) }
  | _ => none

def relock (σ : System T) (t : T) : Option (System T) :=
  match σ.pc t, σ.mutex with
  | .woken g, none => some { σ with mutex := some t, pc := Function.update σ.pc t (.testing g) }
  | _, _ => none

def unlock (σ : System T) (t : T) : Option (System T) :=
  match σ.pc t with
  | .unlocking r => some { σ with
      mutex := none
      pc := Function.update σ.pc t .outside
      history := σ.history.returned t r }
  | _ => none

def step (σ : System T) : Event T → Option (System T)
  | .call t => σ.call t
  | .lock t => σ.lock t
  | .arrive t => σ.arrive t
  | .test t => σ.test t
  | .wake t => σ.wake t
  | .relock t => σ.relock t
  | .unlock t => σ.unlock t

/-! ### What each step does -/

variable {σ σ' : System T} {t : T}

theorem call_cases (h : σ.call t = some σ') : σ.pc t = .outside ∧
    σ' = { σ with pc := Function.update σ.pc t .locking, history := σ.history.called t } := by
  unfold call at h
  split at h <;> cases h
  exact ⟨by assumption, rfl⟩

theorem lock_cases (h : σ.lock t = some σ') : σ.pc t = .locking ∧ σ.mutex = none ∧
    σ' = { σ with mutex := some t, pc := Function.update σ.pc t .entered } := by
  unfold lock at h
  split at h <;> cases h
  exact ⟨by assumption, by assumption, rfl⟩

theorem arrive_cases (h : σ.arrive t = some σ') : σ.pc t = .entered ∧
    (toInt (σ.barrier.waitingThreads + 1) < σ.barrier.maxThreads ∧ σ' = { σ with
      barrier := { σ.barrier with waitingThreads := toInt (σ.barrier.waitingThreads + 1) }
      pc := Function.update σ.pc t (.testing σ.barrier.generation)
      history := σ.history.counted t } ∨
    ¬ toInt (σ.barrier.waitingThreads + 1) < σ.barrier.maxThreads ∧ σ' = { σ with
      barrier := { σ.barrier with
        waitingThreads := 0
        generation := toInt (σ.barrier.generation + 1) }
      pc := Function.update (fun u => (σ.pc u).broadcast) t (.unlocking MY_PTHREAD_BARRIER_SERIAL_THREAD)
      history := σ.history.completed t }) := by
  unfold arrive at h
  split at h
  · next hpc =>
    simp only at h
    split at h
    · next hlt => cases h; exact ⟨hpc, .inl ⟨hlt, rfl⟩⟩
    · next hlt => cases h; exact ⟨hpc, .inr ⟨hlt, rfl⟩⟩
  · cases h

theorem test_cases (h : σ.test t = some σ') : ∃ g, σ.pc t = .testing g ∧
    ((g = σ.barrier.generation ∧ σ.barrier.waitingThreads < σ.barrier.maxThreads) ∧
      σ' = { σ with mutex := none, pc := Function.update σ.pc t (.sleeping g) } ∨
    ¬ (g = σ.barrier.generation ∧ σ.barrier.waitingThreads < σ.barrier.maxThreads) ∧
      σ' = { σ with pc := Function.update σ.pc t (.unlocking 0) }) := by
  unfold test at h
  split at h
  · next g hpc =>
    split at h
    · next hstay => cases h; exact ⟨g, hpc, .inl ⟨hstay, rfl⟩⟩
    · next hleave => cases h; exact ⟨g, hpc, .inr ⟨hleave, rfl⟩⟩
  · cases h

theorem wake_cases (h : σ.wake t = some σ') : ∃ g, σ.pc t = .sleeping g ∧
    σ' = { σ with pc := Function.update σ.pc t (.woken g) } := by
  unfold wake at h
  split at h <;> cases h
  exact ⟨_, by assumption, rfl⟩

theorem relock_cases (h : σ.relock t = some σ') : ∃ g, σ.pc t = .woken g ∧ σ.mutex = none ∧
    σ' = { σ with mutex := some t, pc := Function.update σ.pc t (.testing g) } := by
  unfold relock at h
  split at h <;> cases h
  exact ⟨_, by assumption, by assumption, rfl⟩

theorem unlock_cases (h : σ.unlock t = some σ') : ∃ r, σ.pc t = .unlocking r ∧ σ' = { σ with
    mutex := none
    pc := Function.update σ.pc t .outside
    history := σ.history.returned t r } := by
  unfold unlock at h
  split at h <;> cases h
  exact ⟨_, by assumption, rfl⟩

end System

theorem init_spec {barrier : Option MyPthreadBarrier} {count : Int} {res : InitResults} {b : MyPthreadBarrier}
    (h : myPthreadBarrierInit barrier count res = (some b, 0)) :
    b = { waitingThreads := 0, maxThreads := count, generation := 0 } ∧ 1 ≤ count := by
  unfold myPthreadBarrierInit at h
  split at h
  · cases h
  split at h
  · have := (Prod.mk.inj h).2; omega
  next hcount =>
  split at h
  · have := (Prod.mk.inj h).2; omega
  split at h
  · have := (Prod.mk.inj h).2; omega
  split at h
  · have := (Prod.mk.inj h).2; omega
  · exact ⟨(Option.some.inj (Prod.mk.inj h).1).symm, by omega⟩

end OsExercises.Barrier
