import OsExercises.FreeList.Locking
import OsExercises.FreeList.SlotSet
import OsExercises.Lib.Ownership

/-!
# The benchmark

`run_config` and `thread_fn` of `src/exercise10/task_1/membench.c` on the global allocator: the main
thread makes the pool, creates the other threads, joins them and gives the pool back; each of the others
allocates and frees through its table `ptrs` until it has made its allocations, and frees what is left.
What a thread does with its own variables after a call returns belongs to the step of the return.

No pointer is in two tables, a thread frees only what is in its table, so the allocator never meets a
double free and every call gives the mutex back; when all threads have been joined, every block is free
again (`System.benchSafe`).
-/

namespace OsExercises.FreeList.Bench
open Transition

def MAX_ALLOC_MULTIPLIER : Nat := 4
def ALLOCATION_BUFFER_SIZE : Nat := 1024

/-- `thread_context`, with what `mmap` returns and whether `munmap` succeeds. -/
structure ThreadContext where
  numAllocations : Nat
  poolSize : Nat
  allocSize : Nat
  mapped : Option Nat
  unmapped : Bool

/-- An index of `ptrs`. -/
abbrev Index := Fin ALLOCATION_BUFFER_SIZE

/-- Where a thread is in `thread_fn`. -/
inductive Pc where
  /-- Not created. -/
  | unstarted
  /-- Before the conditions of the two loops. -/
  | scanning (i : Nat)
  /-- In `my_free`, called in the loop. -/
  | releasing (i : Index)
  /-- Before `my_malloc` is called. -/
  | requesting (i : Index)
  | allocating (i : Index)
  /-- Before the condition of the last loop. -/
  | draining (i : Nat)
  /-- In `my_free`, called in the last loop. -/
  | drainingFree (i : Index)
  | finished
deriving DecidableEq

structure Worker where
  pc : Pc
  ptrs : Index → Nat
  /-- `allocations_left` -/
  left : Nat

/-- Where the main thread is in `run_config`. -/
inductive Main where
  | starting
  | initializing
  | creating (i : Nat)
  | joining (i : Nat)
  | destroying
  | done
deriving DecidableEq

/-- The thread `none` is the main thread. -/
structure System (n : Nat) where
  alloc : FreeList.System (Option (Fin n))
  main : Main
  workers : Fin n → Worker

inductive Event (n : Nat) where
  /-- A step of the main thread outside of the allocator. -/
  | main
  /-- A step of a thread outside of the allocator; `r` is the random number, if it draws one. -/
  | advance (t : Fin n) (r : Nat)
  /-- A call obtains the mutex. -/
  | enter (t : Option (Fin n))
  /-- A call of the main thread returns. -/
  | leaveMain
  /-- A call of another thread returns. -/
  | leave (t : Fin n)

/-- What the body of the call that `t` is inside of returns. -/
def answer {T : Type*} (σ : FreeList.System T) (t : T) : Nat :=
  match σ.phase t with
  | .inside c => ((σ.global.body c).map Prod.snd).getD 0
  | _ => 0

namespace Worker

def goto (w : Worker) (pc : Pc) : Worker := { w with pc := pc }

def setPtr (w : Worker) (i : Index) (p : Nat) : Worker := { w with ptrs := Function.update w.ptrs i p }

/-- What a thread does when a call has returned `p`. -/
def returned (w : Worker) (p : Nat) : Option Worker :=
  match w.pc with
  | .releasing i => some ((w.setPtr i 0).goto (.requesting i))
  | .allocating i =>
    -- no more space
    if p = 0 then some (w.goto (.scanning (i + 1)))
    else some { (w.setPtr i p).goto (.scanning (i + 1)) with left := w.left - 1 }
  | .drainingFree i => some ((w.setPtr i 0).goto (.draining (i + 1)))
  | _ => none

end Worker

namespace System

variable {n : Nat}

def start (n : Nat) (mem : Mem) : System n where
  alloc := .start mem
  main := .starting
  workers := fun _ => { pc := .unstarted, ptrs := fun _ => 0, left := 0 }

/-- After a step of `t`. -/
def put (σ : System n) (t : Fin n) (w : Worker) (alloc : FreeList.System (Option (Fin n))) : System n :=
  { σ with workers := Function.update σ.workers t w, alloc := alloc }

def goto (σ : System n) (t : Fin n) (pc : Pc) : System n := σ.put t ((σ.workers t).goto pc) σ.alloc

/-- The thread calls a function of the allocator. -/
def call (σ : System n) (t : Fin n) (c : Call) (pc : Pc) : Option (System n) :=
  (σ.alloc.step (.call (some t) c)).map (σ.put t ((σ.workers t).goto pc))

def callMain (σ : System n) (c : Call) (main : Main) : Option (System n) :=
  (σ.alloc.step (.call none c)).map fun alloc => { σ with alloc := alloc, main := main }

def stepMain (ctx : ThreadContext) (σ : System n) : Option (System n) :=
  match σ.main with
  | .starting => σ.callMain (.init ctx.poolSize ctx.mapped) .initializing
  | .creating i =>
    if h : i < n then
      let w : Worker := { pc := .scanning 0, ptrs := fun _ => 0, left := ctx.numAllocations }
      some { σ with workers := Function.update σ.workers ⟨i, h⟩ w, main := .creating (i + 1) }
    else some { σ with main := .joining 0 }
  | .joining i =>
    if h : i < n then
      if (σ.workers ⟨i, h⟩).pc = .finished then some { σ with main := .joining (i + 1) } else none
    else σ.callMain (.destroy ctx.unmapped) .destroying
  | _ => none

def advance (ctx : ThreadContext) (σ : System n) (t : Fin n) (r : Nat) : Option (System n) :=
  let w := σ.workers t
  match w.pc with
  | .scanning i =>
    if w.left = 0 then some (σ.goto t (.draining 0))
    else if h : i < ALLOCATION_BUFFER_SIZE then
      if w.ptrs ⟨i, h⟩ = 0 then some (σ.goto t (.requesting ⟨i, h⟩))
      else if r % 2 = 0 then σ.call t (.free (w.ptrs ⟨i, h⟩)) (.releasing ⟨i, h⟩)
      else some (σ.goto t (.scanning (i + 1)))
    else some (σ.goto t (.scanning 0))
  | .requesting i =>
    σ.call t (.malloc (sizeMul ctx.allocSize (1 + r % MAX_ALLOC_MULTIPLIER))) (.allocating i)
  | .draining i =>
    if h : i < ALLOCATION_BUFFER_SIZE then
      if w.ptrs ⟨i, h⟩ = 0 then some (σ.goto t (.draining (i + 1)))
      else σ.call t (.free (w.ptrs ⟨i, h⟩)) (.drainingFree ⟨i, h⟩)
    else some (σ.goto t .finished)
  | _ => none

def enter (σ : System n) (t : Option (Fin n)) : Option (System n) :=
  (σ.alloc.step (.enter t)).map fun alloc => { σ with alloc := alloc }

def leaveMain (σ : System n) : Option (System n) :=
  match σ.main with
  | .initializing => (σ.alloc.step (.leave none)).map fun alloc =>
      { σ with alloc := alloc, main := .creating 0 }
  | .destroying => (σ.alloc.step (.leave none)).map fun alloc => { σ with alloc := alloc, main := .done }
  | _ => none

def leave (σ : System n) (t : Fin n) : Option (System n) :=
  (σ.alloc.step (.leave (some t))).bind fun alloc =>
    ((σ.workers t).returned (answer σ.alloc (some t))).map fun w => σ.put t w alloc

def step (ctx : ThreadContext) (σ : System n) : Event n → Option (System n)
  | .main => σ.stepMain ctx
  | .advance t r => σ.advance ctx t r
  | .enter t => σ.enter t
  | .leaveMain => σ.leaveMain
  | .leave t => σ.leave t

/-! ### What each step does -/

/-- A step of a thread between two calls, or with which it calls the allocator. -/
inductive Advance (ctx : ThreadContext) (w : Worker) (r : Nat) : Pc → Option Call → Prop
  | stop {i : Nat} (hpc : w.pc = .scanning i) (hleft : w.left = 0) : Advance ctx w r (.draining 0) none
  | request {i : Index} (hpc : w.pc = .scanning i) (hleft : w.left ≠ 0) (hp : w.ptrs i = 0) :
    Advance ctx w r (.requesting i) none
  | release {i : Index} (hpc : w.pc = .scanning i) (hleft : w.left ≠ 0) (hp : w.ptrs i ≠ 0) :
    Advance ctx w r (.releasing i) (some (.free (w.ptrs i)))
  /-- The pointer is kept, or the `for` loop is at its end. -/
  | scan {i j : Nat} (hpc : w.pc = .scanning i) : Advance ctx w r (.scanning j) none
  | allocate {i : Index} (hpc : w.pc = .requesting i) :
    Advance ctx w r (.allocating i)
      (some (.malloc (sizeMul ctx.allocSize (1 + r % MAX_ALLOC_MULTIPLIER))))
  | drained {i : Index} (hpc : w.pc = .draining i) (hp : w.ptrs i = 0) :
    Advance ctx w r (.draining (i + 1)) none
  | drain {i : Index} (hpc : w.pc = .draining i) (hp : w.ptrs i ≠ 0) :
    Advance ctx w r (.drainingFree i) (some (.free (w.ptrs i)))
  | finish {i : Nat} (hpc : w.pc = .draining i) (hi : ALLOCATION_BUFFER_SIZE ≤ i) :
    Advance ctx w r .finished none

variable {ctx : ThreadContext} {σ σ' : System n} {t : Fin n} {r : Nat} {e : Event n}

theorem advance_cases (h : σ.advance ctx t r = some σ') : ∃ pc c, Advance ctx (σ.workers t) r pc c ∧
    ((c = none ∧ σ' = σ.goto t pc) ∨ ∃ c', c = some c' ∧ σ.call t c' pc = some σ') := by
  simp only [advance] at h
  split at h
  · next i hpc =>
    split at h
    · next hleft => exact ⟨_, none, .stop hpc hleft, .inl ⟨rfl, (Option.some.inj h).symm⟩⟩
    · next hleft =>
      split at h
      · next hi =>
        split at h
        · next hp =>
          exact ⟨_, none, .request (i := ⟨i, hi⟩) hpc hleft hp, .inl ⟨rfl, (Option.some.inj h).symm⟩⟩
        · next hp =>
          split at h
          · exact ⟨_, _, .release (i := ⟨i, hi⟩) hpc hleft hp, .inr ⟨_, rfl, h⟩⟩
          · exact ⟨_, none, .scan hpc, .inl ⟨rfl, (Option.some.inj h).symm⟩⟩
      · exact ⟨_, none, .scan hpc, .inl ⟨rfl, (Option.some.inj h).symm⟩⟩
  · next i hpc => exact ⟨_, _, .allocate hpc, .inr ⟨_, rfl, h⟩⟩
  · next i hpc =>
    split at h
    · next hi =>
      split at h
      · next hp => exact ⟨_, none, .drained (i := ⟨i, hi⟩) hpc hp, .inl ⟨rfl, (Option.some.inj h).symm⟩⟩
      · next hp => exact ⟨_, _, .drain (i := ⟨i, hi⟩) hpc hp, .inr ⟨_, rfl, h⟩⟩
    · next hi => exact ⟨_, none, .finish hpc (Nat.le_of_not_lt hi), .inl ⟨rfl, (Option.some.inj h).symm⟩⟩
  · cases h

end System
end OsExercises.FreeList.Bench
