import OsExercises.Lib.CInt
import OsExercises.Lib.Channel
import OsExercises.Lib.Transition

/-!
# The producer and its consumers

`src/exercise06/task_2/task_2.c` and `src/exercise06/task_3/task_3.c` under any scheduler. `main`
creates `c` consumers, pushes the numbers `1, -2, 3, ..` up to `n` and then `c` sentinels, and joins
the consumers; the two variants differ in what a consumer does when the queue is empty. What a thread
does between taking and giving up `queue_mutex` is split into steps. The sums are mathematical integers;
`Overflow` says when they are in the range of `int`. `added` is not part of the program: it records what a
consumer added to its sum.
-/

namespace OsExercises.ProducerConsumer

/-- Task 2 tries again while the queue is empty, task 3 waits for the condition `is_empty`. -/
inductive Variant where
  | busyWaiting
  | condition
deriving DecidableEq

inductive Thread (c : Nat) where
  | main
  | consumer (t : Fin c)
deriving DecidableEq

/-! ### `myqueue.h` -/

/-- The entries of a `myqueue`, with the log of all pushes and pops. -/
abbrev MyQueue (c : Nat) := Channel (Fin c) Int

def myqueueInit (c : Nat) : MyQueue c := Channel.empty

def myqueueIsEmpty {c : Nat} (q : MyQueue c) : Bool := q.queue.isEmpty

def myqueuePush {c : Nat} (q : MyQueue c) (value : Int) : MyQueue c := q.send value

/-- `none` if the assertion fails that the queue is not empty. -/
def myqueuePop {c : Nat} (q : MyQueue c) (t : Fin c) : Option (Int × MyQueue c) := q.receive t

/-! ### The threads -/

/-- The iteration of one of the two loops that push. -/
inductive Task where
  | number (i : Int)
  | sentinel (i : Nat)
deriving DecidableEq

def Task.value : Task → Int
  | .number i => if i % 2 ≠ 0 then i else -i
  | .sentinel _ => INT_MAX

/-- Where `main` is, with its local variables. -/
inductive MainPc where
  /-- At the condition of the loop that creates the consumers. -/
  | creating (i : Nat)
  /-- At `myqueue_init`. -/
  | initializing
  | locking (task : Task)
  /-- Holds the mutex, before `myqueue_push`. -/
  | pushing (task : Task)
  /-- Holds the mutex, before `pthread_cond_signal`. -/
  | signalling (task : Task)
  | unlocking (task : Task)
  /-- At the increment of the loop variable. -/
  | advancing (task : Task)
  /-- At the condition of the loop that joins the consumers. -/
  | joining (i : Nat) (finalSum : Int)
  | finished (finalSum : Int)
deriving DecidableEq

/-- Where a consumer is, with its variable `value`. -/
inductive ConsumerPc where
  | unborn
  /-- At `consumer->sum = 0`. -/
  | starting
  | locking
  /-- Holds the mutex, at the test for an empty queue. -/
  | testing
  /-- In `pthread_cond_wait`, not woken. -/
  | sleeping
  /-- In `pthread_cond_wait`, woken, about to take the mutex again. -/
  | woken
  /-- Holds the mutex, before `myqueue_pop`. -/
  | popping
  /-- Holds the mutex, with the popped value. -/
  | unlocking (value : Int)
  /-- Before the comparison with `INT_MAX`. -/
  | deciding (value : Int)
  | finished
deriving DecidableEq

/-- `consumer_t` -/
structure Consumer where
  pc : ConsumerPc
  sum : Int
  added : List Int
deriving DecidableEq

structure System (c : Nat) where
  main : MainPc
  consumers : Fin c → Consumer
  mutex : Option (Thread c)
  queue : MyQueue c

inductive Event (c : Nat) where
  | create
  | init
  | mainLock
  | push
  /-- The consumer that is woken, `none` if nobody sleeps. -/
  | signal (woken : Option (Fin c))
  | mainUnlock
  | advance
  | join
  | start (t : Fin c)
  | lock (t : Fin c)
  /-- The test for an empty queue, and what follows when it is empty. -/
  | test (t : Fin c)
  /-- A spurious wake-up. -/
  | wake (t : Fin c)
  | relock (t : Fin c)
  | pop (t : Fin c)
  | unlock (t : Fin c)
  | decide (t : Fin c)

def Event.spurious {c : Nat} : Event c → Bool
  | .wake _ => true
  | _ => false

/-- At the condition of the loop that pushes the sentinels. -/
def sentinelLoop (c i : Nat) : MainPc :=
  if i < c then .locking (.sentinel i) else .joining 0 0

/-- At the condition of the loop that pushes the numbers. -/
def numberLoop (c : Nat) (n i : Int) : MainPc :=
  if i ≤ n then .locking (.number i) else sentinelLoop c 0

namespace System

variable {c : Nat}

/-- The sums come out of `malloc`. -/
def init (sums : Fin c → Int) : System c :=
  ⟨.creating 0, fun t => ⟨.unborn, sums t, []⟩, none, myqueueInit c⟩

def pc (σ : System c) (t : Fin c) : ConsumerPc := (σ.consumers t).pc

def go (σ : System c) (t : Fin c) (p : ConsumerPc) : Fin c → Consumer :=
  Function.update σ.consumers t { σ.consumers t with pc := p }

def create (σ : System c) : Option (System c) :=
  match σ.main with
  | .creating i =>
    if h : i < c then some { σ with main := .creating (i + 1), consumers := σ.go ⟨i, h⟩ .starting }
    else some { σ with main := .initializing }
  | _ => none

def initQueue (n : Int) (σ : System c) : Option (System c) :=
  match σ.main with
  | .initializing => some { σ with main := numberLoop c n 1, queue := myqueueInit c }
  | _ => none

def mainLock (σ : System c) : Option (System c) :=
  match σ.main, σ.mutex with
  | .locking task, none => some { σ with main := .pushing task, mutex := some .main }
  | _, _ => none

def push (v : Variant) (σ : System c) : Option (System c) :=
  match σ.main with
  | .pushing task => some { σ with
      main := match v with
        | .busyWaiting => .unlocking task
        | .condition => .signalling task
      queue := myqueuePush σ.queue task.value }
  | _ => none

def signal (σ : System c) (woken : Option (Fin c)) : Option (System c) :=
  match σ.main, woken with
  | .signalling task, some t =>
    if σ.pc t = .sleeping then some { σ with main := .unlocking task, consumers := σ.go t .woken }
    else none
  | .signalling task, none =>
    if ∀ t, σ.pc t ≠ .sleeping then some { σ with main := .unlocking task } else none
  | _, _ => none

def mainUnlock (σ : System c) : Option (System c) :=
  match σ.main with
  | .unlocking task => some { σ with main := .advancing task, mutex := none }
  | _ => none

def advance (n : Int) (σ : System c) : Option (System c) :=
  match σ.main with
  | .advancing (.number i) => (intAdd? i 1).map fun i => { σ with main := numberLoop c n i }
  | .advancing (.sentinel i) => some { σ with main := sentinelLoop c (i + 1) }
  | _ => none

def join (σ : System c) : Option (System c) :=
  match σ.main with
  | .joining i finalSum =>
    if h : i < c then
      if σ.pc ⟨i, h⟩ = .finished then
        some { σ with main := .joining (i + 1) (finalSum + (σ.consumers ⟨i, h⟩).sum) }
      else none
    else some { σ with main := .finished finalSum }
  | _ => none

def start (σ : System c) (t : Fin c) : Option (System c) :=
  match σ.pc t with
  | .starting => some { σ with
      consumers := Function.update σ.consumers t { σ.consumers t with pc := .locking, sum := 0 } }
  | _ => none

def lock (σ : System c) (t : Fin c) : Option (System c) :=
  match σ.pc t, σ.mutex with
  | .locking, none => some { σ with consumers := σ.go t .testing, mutex := some (.consumer t) }
  | _, _ => none

def test (v : Variant) (σ : System c) (t : Fin c) : Option (System c) :=
  match σ.pc t with
  | .testing =>
    if myqueueIsEmpty σ.queue then
      match v with
      | .busyWaiting => some { σ with consumers := σ.go t .locking, mutex := none }
      | .condition => some { σ with consumers := σ.go t .sleeping, mutex := none }
    else some { σ with consumers := σ.go t .popping }
  | _ => none

def wake (σ : System c) (t : Fin c) : Option (System c) :=
  match σ.pc t with
  | .sleeping => some { σ with consumers := σ.go t .woken }
  | _ => none

def relock (σ : System c) (t : Fin c) : Option (System c) :=
  match σ.pc t, σ.mutex with
  | .woken, none => some { σ with consumers := σ.go t .testing, mutex := some (.consumer t) }
  | _, _ => none

def pop (σ : System c) (t : Fin c) : Option (System c) :=
  match σ.pc t with
  | .popping => (myqueuePop σ.queue t).map fun r =>
      { σ with consumers := σ.go t (.unlocking r.1), queue := r.2 }
  | _ => none

def unlock (σ : System c) (t : Fin c) : Option (System c) :=
  match σ.pc t with
  | .unlocking value => some { σ with consumers := σ.go t (.deciding value), mutex := none }
  | _ => none

def decide (σ : System c) (t : Fin c) : Option (System c) :=
  match σ.pc t with
  | .deciding value =>
    if value = INT_MAX then some { σ with consumers := σ.go t .finished }
    else some { σ with
      consumers := Function.update σ.consumers t
        ⟨.locking, (σ.consumers t).sum + value, (σ.consumers t).added ++ [value]⟩ }
  | _ => none

def step (v : Variant) (n : Int) (σ : System c) : Event c → Option (System c)
  | .create => σ.create
  | .init => σ.initQueue n
  | .mainLock => σ.mainLock
  | .push => σ.push v
  | .signal woken => σ.signal woken
  | .mainUnlock => σ.mainUnlock
  | .advance => σ.advance n
  | .join => σ.join
  | .start t => σ.start t
  | .lock t => σ.lock t
  | .test t => σ.test v t
  | .wake t => σ.wake t
  | .relock t => σ.relock t
  | .pop t => σ.pop t
  | .unlock t => σ.unlock t
  | .decide t => σ.decide t

/-! ### What each step does -/

variable (v : Variant) (n : Int) (σ : System c)

/-- The outcomes of the steps, one for each way through the source. -/
inductive Step : Event c → System c → Prop
  | createNext {i : Nat} (hmain : σ.main = .creating i) (hi : i < c) :
    Step .create { σ with main := .creating (i + 1), consumers := σ.go ⟨i, hi⟩ .starting }
  | created {i : Nat} (hmain : σ.main = .creating i) (hi : ¬ i < c) :
    Step .create { σ with main := .initializing }
  | init (hmain : σ.main = .initializing) :
    Step .init { σ with main := numberLoop c n 1, queue := myqueueInit c }
  | mainLock {task : Task} (hmain : σ.main = .locking task) (hmutex : σ.mutex = none) :
    Step .mainLock { σ with main := .pushing task, mutex := some .main }
  | pushBusyWaiting {task : Task} (hv : v = .busyWaiting) (hmain : σ.main = .pushing task) :
    Step .push { σ with main := .unlocking task, queue := myqueuePush σ.queue task.value }
  | pushCondition {task : Task} (hv : v = .condition) (hmain : σ.main = .pushing task) :
    Step .push { σ with main := .signalling task, queue := myqueuePush σ.queue task.value }
  | signal {task : Task} {t : Fin c} (hmain : σ.main = .signalling task) (hpc : σ.pc t = .sleeping) :
    Step (.signal (some t)) { σ with main := .unlocking task, consumers := σ.go t .woken }
  | signalNobody {task : Task} (hmain : σ.main = .signalling task) (hpc : ∀ t, σ.pc t ≠ .sleeping) :
    Step (.signal none) { σ with main := .unlocking task }
  | mainUnlock {task : Task} (hmain : σ.main = .unlocking task) :
    Step .mainUnlock { σ with main := .advancing task, mutex := none }
  | advanceNumber {i j : Int} (hmain : σ.main = .advancing (.number i)) (hj : intAdd? i 1 = some j) :
    Step .advance { σ with main := numberLoop c n j }
  | advanceSentinel {i : Nat} (hmain : σ.main = .advancing (.sentinel i)) :
    Step .advance { σ with main := sentinelLoop c (i + 1) }
  | joinNext {i : Nat} {finalSum : Int} (hmain : σ.main = .joining i finalSum) (hi : i < c)
    (hpc : σ.pc ⟨i, hi⟩ = .finished) :
    Step .join { σ with main := .joining (i + 1) (finalSum + (σ.consumers ⟨i, hi⟩).sum) }
  | joined {i : Nat} {finalSum : Int} (hmain : σ.main = .joining i finalSum) (hi : ¬ i < c) :
    Step .join { σ with main := .finished finalSum }
  | start {t : Fin c} (hpc : σ.pc t = .starting) :
    Step (.start t) { σ with
      consumers := Function.update σ.consumers t { σ.consumers t with pc := .locking, sum := 0 } }
  | lock {t : Fin c} (hpc : σ.pc t = .locking) (hmutex : σ.mutex = none) :
    Step (.lock t) { σ with consumers := σ.go t .testing, mutex := some (.consumer t) }
  | tryAgain {t : Fin c} (hv : v = .busyWaiting) (hpc : σ.pc t = .testing)
    (hempty : σ.queue.queue = []) :
    Step (.test t) { σ with consumers := σ.go t .locking, mutex := none }
  | sleep {t : Fin c} (hv : v = .condition) (hpc : σ.pc t = .testing) (hempty : σ.queue.queue = []) :
    Step (.test t) { σ with consumers := σ.go t .sleeping, mutex := none }
  | found {t : Fin c} (hpc : σ.pc t = .testing) (hne : σ.queue.queue ≠ []) :
    Step (.test t) { σ with consumers := σ.go t .popping }
  | wake {t : Fin c} (hpc : σ.pc t = .sleeping) :
    Step (.wake t) { σ with consumers := σ.go t .woken }
  | relock {t : Fin c} (hpc : σ.pc t = .woken) (hmutex : σ.mutex = none) :
    Step (.relock t) { σ with consumers := σ.go t .testing, mutex := some (.consumer t) }
  | pop {t : Fin c} {value : Int} {q : MyQueue c} (hpc : σ.pc t = .popping)
    (hpop : myqueuePop σ.queue t = some (value, q)) :
    Step (.pop t) { σ with consumers := σ.go t (.unlocking value), queue := q }
  | unlock {t : Fin c} {value : Int} (hpc : σ.pc t = .unlocking value) :
    Step (.unlock t) { σ with consumers := σ.go t (.deciding value), mutex := none }
  | stop {t : Fin c} (hpc : σ.pc t = .deciding INT_MAX) :
    Step (.decide t) { σ with consumers := σ.go t .finished }
  | add {t : Fin c} {value : Int} (hpc : σ.pc t = .deciding value) (hvalue : value ≠ INT_MAX) :
    Step (.decide t) { σ with
      consumers := Function.update σ.consumers t
        ⟨.locking, (σ.consumers t).sum + value, (σ.consumers t).added ++ [value]⟩ }

variable {v n σ} {e : Event c} {σ' : System c}

theorem isEmpty_iff {q : MyQueue c} : myqueueIsEmpty q = true ↔ q.queue = [] := List.isEmpty_iff

theorem step_cases (h : σ.step v n e = some σ') : Step v n σ e σ' := by
  cases e with
  | create =>
    simp only [step, create] at h
    split at h
    · next hmain =>
      split at h <;> cases h
      · next hi => exact .createNext hmain hi
      · next hi => exact .created hmain hi
    · cases h
  | init =>
    simp only [step, initQueue] at h
    split at h <;> cases h
    exact .init (by assumption)
  | mainLock =>
    simp only [step, mainLock] at h
    split at h <;> cases h
    exact .mainLock (by assumption) (by assumption)
  | push =>
    simp only [step, push] at h
    split at h
    · next hmain =>
      cases v <;> cases h
      · exact .pushBusyWaiting rfl hmain
      · exact .pushCondition rfl hmain
    · cases h
  | signal woken =>
    simp only [step, signal] at h
    split at h
    · next hmain =>
      split at h <;> cases h
      exact .signal hmain (by assumption)
    · next hmain =>
      split at h <;> cases h
      exact .signalNobody hmain (by assumption)
    · cases h
  | mainUnlock =>
    simp only [step, mainUnlock] at h
    split at h <;> cases h
    exact .mainUnlock (by assumption)
  | advance =>
    simp only [step, advance] at h
    split at h
    · next hmain =>
      obtain ⟨j, hj, rfl⟩ := Option.map_eq_some_iff.mp h
      exact .advanceNumber hmain hj
    · next hmain =>
      cases h
      exact .advanceSentinel hmain
    · cases h
  | join =>
    simp only [step, join] at h
    split at h
    · next hmain =>
      split at h
      · next hi =>
        split at h <;> cases h
        exact .joinNext hmain hi (by assumption)
      · next hi =>
        cases h
        exact .joined hmain hi
    · cases h
  | start t =>
    simp only [step, start] at h
    split at h <;> cases h
    exact .start (by assumption)
  | lock t =>
    simp only [step, lock] at h
    split at h <;> cases h
    exact .lock (by assumption) (by assumption)
  | test t =>
    simp only [step, test] at h
    split at h
    · next hpc =>
      split at h
      · next hempty =>
        cases v <;> cases h
        · exact .tryAgain rfl hpc (isEmpty_iff.mp hempty)
        · exact .sleep rfl hpc (isEmpty_iff.mp hempty)
      · next hempty =>
        cases h
        exact .found hpc (mt isEmpty_iff.mpr hempty)
    · cases h
  | wake t =>
    simp only [step, wake] at h
    split at h <;> cases h
    exact .wake (by assumption)
  | relock t =>
    simp only [step, relock] at h
    split at h <;> cases h
    exact .relock (by assumption) (by assumption)
  | pop t =>
    simp only [step, pop] at h
    split at h
    · next hpc =>
      obtain ⟨⟨value, q⟩, hpop, rfl⟩ := Option.map_eq_some_iff.mp h
      exact .pop hpc hpop
    · cases h
  | unlock t =>
    simp only [step, unlock] at h
    split at h <;> cases h
    exact .unlock (by assumption)
  | decide t =>
    simp only [step, decide] at h
    split at h
    · next value hpc =>
      split at h <;> cases h
      · next hvalue => exact .stop (hvalue ▸ hpc)
      · next hvalue => exact .add hpc hvalue
    · cases h

end System
end OsExercises.ProducerConsumer
