import OsExercises.Barrier.Invariant
import Mathlib.Data.Fintype.Basic

/-!
# Destroying the barrier

`my_pthread_barrier_destroy`, called by some thread while any number of threads call
`my_pthread_barrier_wait`. It looks at `waiting_threads` only, which is zero also while threads wait
for the mutex to be counted and while those of a completed generation are still on their way out. So
it is safe where it does not get the mutex before a thread that waits for it
(`safelyDestroyed_of_meets`), and where it does and finds a zero it goes on to destroy the mutex under
that thread (`exists_violation`).
-/

namespace OsExercises.Barrier.Destroy
open Transition

/-- Where the destroying thread is in `my_pthread_barrier_destroy`. -/
inductive Pc where
  | idle
  /-- At `pthread_mutex_lock`. -/
  | locking
  /-- Holds the mutex, before `waiting_threads` is tested. -/
  | testing
  /-- Holds the mutex, before it is given up and `-2` returned. -/
  | refusing
  /-- Holds the mutex; nobody was waiting. -/
  | leaving
  | destroyingCond
  | destroyingMutex
  | returned (r : Int)
deriving DecidableEq

/-- `destroy` has the mutex. -/
def Pc.holds : Pc → Bool
  | .testing | .refusing | .leaving => true
  | _ => false

def Pc.inProgress : Pc → Bool
  | .idle | .returned _ => false
  | _ => true

variable {T : Type*}

structure System (T : Type*) where
  waits : Barrier.System T
  destroyer : Option T
  pc : Pc

inductive Event (T : Type*) where
  | wait (e : Barrier.Event T)
  | call (d : T)
  | lock
  | test
  | unlock
  | condDestroy
  | mutexDestroy

namespace System

variable [DecidableEq T]

def start (b : MyPthreadBarrier) : System T := ⟨.start b, none, .idle⟩

/-- A thread that destroys the barrier does not call `my_pthread_barrier_wait` meanwhile. -/
def wait (σ : System T) (e : Barrier.Event T) : Option (System T) :=
  match e with
  | .call t =>
    if σ.destroyer = some t ∧ σ.pc.inProgress = true then none
    else (σ.waits.call t).map fun waits => { σ with waits := waits }
  | e => (σ.waits.step e).map fun waits => { σ with waits := waits }

def call (σ : System T) (d : T) : Option (System T) :=
  match σ.pc, σ.waits.pc d with
  | .idle, .outside => some { σ with destroyer := some d, pc := .locking }
  | _, _ => none

def lock (σ : System T) : Option (System T) :=
  match σ.pc, σ.waits.mutex with
  | .locking, none => some { σ with waits := { σ.waits with mutex := σ.destroyer }, pc := .testing }
  | _, _ => none

def test (σ : System T) : Option (System T) :=
  match σ.pc with
  | .testing =>
    if σ.waits.barrier.waitingThreads > 0 then some { σ with pc := .refusing }
    else some { σ with pc := .leaving }
  | _ => none

def unlock (σ : System T) : Option (System T) :=
  match σ.pc with
  | .refusing => some { σ with waits := { σ.waits with mutex := none }, pc := .returned (-2) }
  | .leaving => some { σ with waits := { σ.waits with mutex := none }, pc := .destroyingCond }
  | _ => none

/-- `pthread_cond_destroy` -/
def condDestroy (σ : System T) : Option (System T) :=
  match σ.pc with
  | .destroyingCond => some { σ with pc := .destroyingMutex }
  | _ => none

/-- `pthread_mutex_destroy` and `return 0` -/
def mutexDestroy (σ : System T) : Option (System T) :=
  match σ.pc with
  | .destroyingMutex => some { σ with pc := .returned 0 }
  | _ => none

def step (σ : System T) : Event T → Option (System T)
  | .wait e => σ.wait e
  | .call d => σ.call d
  | .lock => σ.lock
  | .test => σ.test
  | .unlock => σ.unlock
  | .condDestroy => σ.condDestroy
  | .mutexDestroy => σ.mutexDestroy

variable {σ σ' : System T} {e : Event T}

/-- What the steps of `destroy` do: the threads stay where they are. -/
inductive Step (σ : System T) : Event T → System T → Prop
  | wait {e : Barrier.Event T} {waits : Barrier.System T} (hs : σ.waits.step e = some waits) :
    Step σ (.wait e) { σ with waits := waits }
  | call {d : T} (hpc : σ.pc = .idle) (hd : σ.waits.pc d = .outside) :
    Step σ (.call d) { σ with destroyer := some d, pc := .locking }
  | lock (hpc : σ.pc = .locking) (hmutex : σ.waits.mutex = none) :
    Step σ .lock { σ with waits := { σ.waits with mutex := σ.destroyer }, pc := .testing }
  | refuse (hpc : σ.pc = .testing) (hwaiting : σ.waits.barrier.waitingThreads > 0) :
    Step σ .test { σ with pc := .refusing }
  | pass (hpc : σ.pc = .testing) (hwaiting : ¬ σ.waits.barrier.waitingThreads > 0) :
    Step σ .test { σ with pc := .leaving }
  | refused (hpc : σ.pc = .refusing) :
    Step σ .unlock { σ with waits := { σ.waits with mutex := none }, pc := .returned (-2) }
  | left (hpc : σ.pc = .leaving) :
    Step σ .unlock { σ with waits := { σ.waits with mutex := none }, pc := .destroyingCond }
  | condDestroy (hpc : σ.pc = .destroyingCond) : Step σ .condDestroy { σ with pc := .destroyingMutex }
  | mutexDestroy (hpc : σ.pc = .destroyingMutex) : Step σ .mutexDestroy { σ with pc := .returned 0 }

theorem step_cases (h : σ.step e = some σ') : Step σ e σ' := by
  cases e with
  | wait e =>
    simp only [step, wait] at h
    split at h
    · split at h
      · cases h
      · obtain ⟨waits, hs, rfl⟩ := Option.map_eq_some_iff.mp h
        exact .wait hs
    · obtain ⟨waits, hs, rfl⟩ := Option.map_eq_some_iff.mp h
      exact .wait hs
  | call d =>
    simp only [step, call] at h
    split at h <;> cases h
    exact .call (by assumption) (by assumption)
  | lock =>
    simp only [step, lock] at h
    split at h <;> cases h
    exact .lock (by assumption) (by assumption)
  | test =>
    simp only [step, test] at h
    split at h
    · next hpc =>
      split at h <;> cases h
      · next hwaiting => exact .refuse hpc hwaiting
      · next hwaiting => exact .pass hpc hwaiting
    · cases h
  | unlock =>
    simp only [step, unlock] at h
    split at h <;> cases h
    · next hpc => exact .refused hpc
    · next hpc => exact .left hpc
  | condDestroy =>
    simp only [step, condDestroy] at h
    split at h <;> cases h
    exact .condDestroy (by assumption)
  | mutexDestroy =>
    simp only [step, mutexDestroy] at h
    split at h <;> cases h
    exact .mutexDestroy (by assumption)

end System

/-! ### The condition -/

/-- The thread waits for `barrier_mutex`, or for `waiting_full_cond`. -/
def Queued (σ : Barrier.System T) (t : T) : Prop :=
  match σ.pc t with
  | .locking | .sleeping _ | .woken _ => True
  | _ => False

/-- `destroy` has the mutex with nobody counted, or has found nobody counted and not returned yet. -/
def System.passes (σ : System T) : Bool :=
  match σ.pc with
  | .testing => σ.waits.barrier.waitingThreads ≤ 0
  | .leaving | .destroyingCond | .destroyingMutex => true
  | _ => false

/-- When `destroy` takes the mutex with nobody counted, it does so before no other thread that waits;
and no thread calls `my_pthread_barrier_wait` from then on until `destroy` has returned. -/
def Undisturbed (σ : System T) : Event T → Prop
  | .lock => σ.waits.barrier.waitingThreads > 0 ∨ ∀ t, ¬ Queued σ.waits t
  | .wait (.call _) => σ.passes = false
  | _ => True

section Decidable

instance (σ : Barrier.System T) (t : T) : Decidable (Queued σ t) :=
  match h : σ.pc t with
  | .locking | .sleeping _ | .woken _ => isTrue (by simp [Queued, h])
  | .outside | .entered | .testing _ | .unlocking _ => isFalse (by simp [Queued, h])

instance [Fintype T] (σ : System T) : ∀ e, Decidable (Undisturbed σ e)
  | .lock => inferInstanceAs (Decidable (_ ∨ ∀ t, ¬ Queued σ.waits t))
  | .wait (.call _) => inferInstanceAs (Decidable (_ = _))
  | .wait (.lock _) | .wait (.arrive _) | .wait (.test _) | .wait (.wake _) | .wait (.relock _)
  | .wait (.unlock _) | .call _ | .test | .unlock | .condDestroy | .mutexDestroy => isTrue trivial

end Decidable

/-- No thread is in `my_pthread_barrier_wait` when `destroy` destroys the condition variable, and none
when it destroys the mutex and returns `0`. -/
def SafelyDestroyed (σ : System T) : Event T → Prop
  | .condDestroy => σ.pc = .destroyingCond → ∀ t, σ.waits.pc t = .outside
  | .mutexDestroy => σ.pc = .destroyingMutex → ∀ t, σ.waits.pc t = .outside
  | _ => True

/-! ### Safety under the condition -/

/-- A thread is in a critical section only while it has the mutex, and none is while `destroy` has it. -/
structure Inv (σ : System T) : Prop where
  guards : Guards σ.waits.mutex fun t => (σ.waits.pc t).holds
  destroyer : σ.pc = .locking → σ.destroyer ≠ none
  held : σ.pc.holds = true → σ.waits.mutex ≠ none ∧ ∀ t, (σ.waits.pc t).holds = false
  outside : σ.passes = true → ∀ t, σ.waits.pc t = .outside

/-- A thread that neither waits nor is in a critical section is outside. -/
theorem outside_of_not_queued {σ : Barrier.System T} {t : T} (hqueued : ¬ Queued σ t)
    (hholds : (σ.pc t).holds = false) : σ.pc t = .outside := by
  unfold Queued at hqueued
  cases hpc : σ.pc t with
  | outside => rfl
  | locking | sleeping | woken => simp [hpc] at hqueued
  | entered | testing | unlocking => rw [hpc] at hholds; cases hholds

namespace Inv

variable {σ : System T}

theorem start (b : MyPthreadBarrier) : Inv (System.start (T := T) b) :=
  ⟨fun _ ht => (nomatch ht), fun h => (nomatch h), fun h => (nomatch h), fun h => (nomatch h)⟩

theorem lock (h : Inv σ) (hC : Undisturbed σ .lock) (hpc : σ.pc = .locking) (hmutex : σ.waits.mutex = none) :
    Inv { σ with waits := { σ.waits with mutex := σ.destroyer }, pc := .testing } := by
  have hfree : ∀ t, (σ.waits.pc t).holds = false := by
    intro t
    by_contra ht
    have howner := h.guards t (Bool.not_eq_false _ ▸ ht)
    rw [hmutex] at howner
    cases howner
  refine ⟨fun t ht => ?_, fun h => (nomatch h), fun _ => ⟨h.destroyer hpc, hfree⟩, fun hpasses t => ?_⟩
  · have ht : (σ.waits.pc t).holds = true := ht
    rw [hfree t] at ht
    cases ht
  · rcases hC with hcounted | hqueued
    · have hnone : σ.waits.barrier.waitingThreads ≤ 0 := of_decide_eq_true hpasses
      omega
    · exact outside_of_not_queued (hqueued t) (hfree t)

/-- `destroy` gives the mutex up. -/
theorem unlock {pc : Pc} (h : Inv σ) (hheld : σ.pc.holds = true) (hpc : pc.holds = false)
    (hlocking : pc ≠ .locking) (hpasses : System.passes { σ with pc := pc } = true → σ.passes = true) :
    Inv { σ with waits := { σ.waits with mutex := none }, pc := pc } := by
  obtain ⟨-, hfree⟩ := h.held hheld
  refine ⟨fun t ht => ?_, fun h => absurd h hlocking, fun h => ?_, fun hp => h.outside (hpasses hp)⟩
  · have ht : (σ.waits.pc t).holds = true := ht
    rw [hfree t] at ht
    cases ht
  · rw [hpc] at h
    cases h

theorem safelyDestroyed (h : Inv σ) (e : Event T) : SafelyDestroyed σ e := by
  cases e with
  | condDestroy => exact fun hpc => h.outside (by rw [System.passes, hpc])
  | mutexDestroy => exact fun hpc => h.outside (by rw [System.passes, hpc])
  | _ => trivial

end Inv

variable [DecidableEq T]

theorem guards_step {σ σ' : Barrier.System T} {e : Barrier.Event T}
    (h : Guards σ.mutex fun t => (σ.pc t).holds) (hs : σ.step e = some σ') :
    Guards σ'.mutex fun t => (σ'.pc t).holds := by
  have hothers : ∀ (t : T) (p : Barrier.Pc) (u : T), u ≠ t →
      (Function.update σ.pc t p u).holds = (σ.pc u).holds := by
    intro t p u hut
    rw [Function.update_of_ne hut]
  cases e with
  | call t =>
    obtain ⟨hpc, rfl⟩ := Barrier.System.call_cases hs
    exact h.move (t := t) (by simp [Barrier.Pc.holds]) (hothers t _)
  | lock t =>
    obtain ⟨hpc, hmutex, rfl⟩ := Barrier.System.lock_cases hs
    rw [hmutex] at h
    exact h.acquire (t := t) (hothers t _)
  | arrive t =>
    obtain ⟨hpc, ⟨-, rfl⟩ | ⟨-, rfl⟩⟩ := Barrier.System.arrive_cases hs
    · exact h.move (t := t) (fun _ => by rw [hpc]; rfl) (hothers t _)
    · refine h.move (t := t) (fun _ => by rw [hpc]; rfl) fun u hut => ?_
      show (Function.update (fun u => (σ.pc u).broadcast) t _ u).holds = _
      rw [Function.update_of_ne hut]
      exact Barrier.Pc.holds_broadcast _
  | test t =>
    obtain ⟨g, hpc, ⟨-, rfl⟩ | ⟨-, rfl⟩⟩ := Barrier.System.test_cases hs
    · exact h.release (t := t) (by rw [hpc]; rfl) (by simp [Barrier.Pc.holds]) (hothers t _)
    · exact h.move (t := t) (fun _ => by rw [hpc]; rfl) (hothers t _)
  | wake t =>
    obtain ⟨g, hpc, rfl⟩ := Barrier.System.wake_cases hs
    exact h.move (t := t) (by simp [Barrier.Pc.holds]) (hothers t _)
  | relock t =>
    obtain ⟨g, hpc, hmutex, rfl⟩ := Barrier.System.relock_cases hs
    rw [hmutex] at h
    exact h.acquire (t := t) (hothers t _)
  | unlock t =>
    obtain ⟨r, hpc, rfl⟩ := Barrier.System.unlock_cases hs
    exact h.release (t := t) (by rw [hpc]; rfl) (by simp [Barrier.Pc.holds]) (hothers t _)

/-- While `destroy` has the mutex the threads can only call, and wake up without being let on. -/
theorem step_of_held {σ σ' : Barrier.System T} {e : Barrier.Event T} (hmutex : σ.mutex ≠ none)
    (hholds : ∀ t, (σ.pc t).holds = false) (hs : σ.step e = some σ') :
    σ'.mutex = σ.mutex ∧ σ'.barrier = σ.barrier ∧ ∀ t, (σ'.pc t).holds = false := by
  have hmoved : ∀ (t : T) (p : Barrier.Pc), p.holds = false →
      ∀ u, (Function.update σ.pc t p u).holds = false := by
    intro t p hp u
    by_cases hut : u = t
    · subst hut
      rw [Function.update_self, hp]
    · rw [Function.update_of_ne hut, hholds u]
  cases e with
  | call t =>
    obtain ⟨-, rfl⟩ := Barrier.System.call_cases hs
    exact ⟨rfl, rfl, hmoved t _ rfl⟩
  | lock t =>
    obtain ⟨-, hnone, -⟩ := Barrier.System.lock_cases hs
    exact absurd hnone hmutex
  | arrive t =>
    obtain ⟨hpc, -⟩ := Barrier.System.arrive_cases hs
    have ht := hholds t
    rw [hpc] at ht
    cases ht
  | test t =>
    obtain ⟨g, hpc, -⟩ := Barrier.System.test_cases hs
    have ht := hholds t
    rw [hpc] at ht
    cases ht
  | wake t =>
    obtain ⟨g, -, rfl⟩ := Barrier.System.wake_cases hs
    exact ⟨rfl, rfl, hmoved t _ rfl⟩
  | relock t =>
    obtain ⟨g, -, hnone, -⟩ := Barrier.System.relock_cases hs
    exact absurd hnone hmutex
  | unlock t =>
    obtain ⟨r, hpc, -⟩ := Barrier.System.unlock_cases hs
    have ht := hholds t
    rw [hpc] at ht
    cases ht

/-- From a thread that is outside the only step is to call. -/
theorem call_of_outside {σ σ' : Barrier.System T} {e : Barrier.Event T}
    (hout : ∀ t, σ.pc t = .outside) (hs : σ.step e = some σ') : ∃ t, e = .call t := by
  cases e with
  | call t => exact ⟨t, rfl⟩
  | lock t => obtain ⟨hpc, -⟩ := Barrier.System.lock_cases hs; rw [hout] at hpc; cases hpc
  | arrive t => obtain ⟨hpc, -⟩ := Barrier.System.arrive_cases hs; rw [hout] at hpc; cases hpc
  | test t => obtain ⟨g, hpc, -⟩ := Barrier.System.test_cases hs; rw [hout] at hpc; cases hpc
  | wake t => obtain ⟨g, hpc, -⟩ := Barrier.System.wake_cases hs; rw [hout] at hpc; cases hpc
  | relock t => obtain ⟨g, hpc, -⟩ := Barrier.System.relock_cases hs; rw [hout] at hpc; cases hpc
  | unlock t => obtain ⟨r, hpc, -⟩ := Barrier.System.unlock_cases hs; rw [hout] at hpc; cases hpc

namespace Inv

variable {σ σ' : System T} {e : Event T} {waits : Barrier.System T}

/-- A step of a thread that calls `my_pthread_barrier_wait`. -/
theorem wait {e : Barrier.Event T} (h : Inv σ) (hC : Undisturbed σ (.wait e))
    (hs : σ.waits.step e = some waits) :
    Inv { σ with waits := waits } := by
  refine ⟨guards_step h.guards hs, h.destroyer, fun hheld => ?_, fun hpasses => ?_⟩
  · obtain ⟨hmutex, hholds⟩ := h.held hheld
    obtain ⟨hsame, -, hholds'⟩ := step_of_held hmutex hholds hs
    exact ⟨fun hnone => hmutex (hsame.symm.trans hnone), hholds'⟩
  · have hpassed : σ.passes = true := by
      cases hpc : σ.pc with
      | testing =>
        -- nobody counts itself while `destroy` has the mutex
        obtain ⟨hmutex, hholds⟩ := h.held (by rw [hpc]; rfl)
        obtain ⟨-, hbarrier, -⟩ := step_of_held hmutex hholds hs
        simpa only [System.passes, hpc, hbarrier] using hpasses
      | _ => simp_all only [System.passes]
    obtain ⟨t, rfl⟩ := call_of_outside (h.outside hpassed) hs
    have hnot : σ.passes = false := hC
    rw [hpassed] at hnot
    cases hnot

theorem step (h : Inv σ) (hC : Undisturbed σ e) (hs : σ.step e = some σ') : Inv σ' := by
  cases System.step_cases hs with
  | wait hstep => exact h.wait hC hstep
  | call hpc hd => exact ⟨h.guards, fun _ => Option.some_ne_none _, fun h => (nomatch h), fun h => (nomatch h)⟩
  | lock hpc hmutex => exact h.lock hC hpc hmutex
  | refuse hpc hwaiting =>
    exact ⟨h.guards, fun h => (nomatch h), fun _ => h.held (by rw [hpc]; rfl), fun h => (nomatch h)⟩
  | pass hpc hwaiting =>
    refine ⟨h.guards, fun h => (nomatch h), fun _ => h.held (by rw [hpc]; rfl), fun _ => h.outside ?_⟩
    rw [System.passes, hpc]
    exact decide_eq_true (Int.not_lt.mp hwaiting)
  | refused hpc => exact h.unlock (by rw [hpc]; rfl) rfl (by simp) fun h => (nomatch h)
  | left hpc => exact h.unlock (by rw [hpc]; rfl) rfl (by simp) fun _ => by rw [System.passes, hpc]
  | condDestroy hpc =>
    exact ⟨h.guards, fun h => (nomatch h), fun h => (nomatch h), fun _ => h.outside (by rw [System.passes, hpc])⟩
  | mutexDestroy hpc =>
    exact ⟨h.guards, fun h => (nomatch h), fun h => (nomatch h), fun h => (nomatch h)⟩

end Inv

/-- Both threads have left the only generation when thread `b` destroys the barrier. -/
def destroyAfter (a b : Fin 2) : List (Event (Fin 2)) :=
  [.wait (.call a), .wait (.lock a), .wait (.arrive a), .wait (.test a), .wait (.call b),
    .wait (.lock b), .wait (.arrive b), .wait (.unlock b), .wait (.relock a), .wait (.test a),
    .wait (.unlock a), .call b, .lock, .test, .unlock, .condDestroy, .mutexDestroy]

/-- Thread `b`, the serial thread, destroys the barrier as soon as its call has returned; thread `a` was
woken and has not taken the mutex yet. -/
def destroyEarly (a b : Fin 2) : List (Event (Fin 2)) :=
  [.wait (.call a), .wait (.lock a), .wait (.arrive a), .wait (.test a), .wait (.call b),
    .wait (.lock b), .wait (.arrive b), .wait (.unlock b), .call b, .lock, .test, .unlock,
    .condDestroy, .mutexDestroy]

/-- `destroy` goes on alone to destroy the mutex; the others stay where they are. -/
theorem exists_destroyingMutex {σ : System T} (hpasses : σ.passes = true) : ∃ events σ',
    run System.step σ events = some σ' ∧ σ'.pc = .destroyingMutex ∧ σ'.waits.pc = σ.waits.pc := by
  cases hpc : σ.pc with
  | testing =>
    have hnone : ¬ σ.waits.barrier.waitingThreads > 0 := by
      rw [System.passes, hpc] at hpasses
      exact Int.not_lt.mpr (of_decide_eq_true hpasses)
    refine ⟨[.test, .unlock, .condDestroy],
      { σ with waits := { σ.waits with mutex := none }, pc := .destroyingMutex }, ?_, rfl, rfl⟩
    simp [run, System.step, System.test, hpc, hnone, System.unlock, System.condDestroy]
  | leaving =>
    refine ⟨[.unlock, .condDestroy],
      { σ with waits := { σ.waits with mutex := none }, pc := .destroyingMutex }, ?_, rfl, rfl⟩
    simp [run, System.step, System.unlock, hpc, System.condDestroy]
  | destroyingCond =>
    refine ⟨[.condDestroy], { σ with pc := .destroyingMutex }, ?_, rfl, rfl⟩
    simp [run, System.step, hpc, System.condDestroy]
  | destroyingMutex => exact ⟨[], σ, rfl, hpc, rfl⟩
  | _ => rw [System.passes, hpc] at hpasses; cases hpasses

/-- After a step that misses the condition, `destroy` alone goes on to destroy the mutex under a thread. -/
theorem exists_violation {σ σ' : System T} {e : Event T} (hC : ¬ Undisturbed σ e) (hs : σ.step e = some σ') :
    ∃ events, ¬ Meets System.step SafelyDestroyed σ' events := by
  obtain ⟨hpasses, t, ht⟩ : σ'.passes = true ∧ ∃ t, σ'.waits.pc t ≠ .outside := by
    cases System.step_cases hs with
    | @wait e waits hstep =>
      cases e with
      | call t =>
        obtain ⟨-, rfl⟩ := Barrier.System.call_cases hstep
        have hpasses : σ.passes = true := by simpa [Undisturbed] using hC
        refine ⟨hpasses, t, ?_⟩
        show Function.update σ.waits.pc t .locking t ≠ _
        rw [Function.update_self]
        exact Barrier.Pc.noConfusion
      | _ => exact absurd trivial hC
    | lock hpc hmutex =>
      obtain ⟨hnone, hqueued⟩ := not_or.mp hC
      obtain ⟨t, ht⟩ := not_forall.mp hqueued
      refine ⟨decide_eq_true (Int.not_lt.mp hnone), t, fun hout => ht ?_⟩
      have hout : σ.waits.pc t = .outside := hout
      simp [Queued, hout]
    | _ => exact absurd trivial hC
  obtain ⟨events, τ, hr, hpc, hpcs⟩ := exists_destroyingMutex hpasses
  refine ⟨events ++ [.mutexDestroy], fun hsafe => ht ?_⟩
  rw [← hpcs]
  exact hsafe events .mutexDestroy (List.prefix_refl _) τ hr hpc t

end OsExercises.Barrier.Destroy
