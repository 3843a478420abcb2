import Mathlib.Data.List.Count
import OsExercises.Lib.CInt
import OsExercises.SpinMutex.Model
import OsExercises.SpinMutex.MyQueue

/-!
# `populate` and `sum`

The two threads of `src/exercise09/task_1/task_1.c`. The steps of the mutex interleave with their
accesses to the queue. `pushed` and `popped` are the values that were linked in and out.
-/

namespace OsExercises.SpinMutex

inductive Thread where
  | populate
  | sum
deriving DecidableEq

/-- The lock is taken, then an entry pushed in four steps. -/
inductive PopulatePc where
  | locking (i : Nat)
  | terminating (i entry : Nat)
  | linking (i entry : Nat)
  | extending (i entry : Nat)
  | unlocking (i : Nat)
  | finished
deriving DecidableEq

/-- `buf` is what `myqueue_pop` returns. -/
inductive SumPc where
  | locking
  /-- After `myqueue_is_empty`, in the loop. -/
  | continuing
  | popping
  | unlinking (entry : Nat) (buf : Int)
  | relinking (entry : Nat) (buf : Int)
  | freeing (entry : Nat) (buf : Int)
  | unlocking (buf : Int)
  | finished
deriving DecidableEq

/-- The part of the mutex's protocol that a thread is in. -/
inductive Phase where
  | locking
  | critical
  | unlocking
  | finished
deriving DecidableEq

def PopulatePc.phase : PopulatePc → Phase
  | .locking _ => .locking
  | .unlocking _ => .unlocking
  | .finished => .finished
  | _ => .critical

def SumPc.phase : SumPc → Phase
  | .locking => .locking
  | .continuing | .unlocking _ => .unlocking
  | .finished => .finished
  | _ => .critical

structure HandOff where
  mutex : System Thread
  queue : MyQueue
  populate : PopulatePc
  sum : SumPc
  /-- The variable `sum`. -/
  total : Int
  pushed : List Int
  popped : List Int

inductive HandOffEvent where
  | mutex (e : Event Thread)
  /-- `entry` is what `malloc` returns, if it is called. -/
  | populate (entry : Nat)
  | sum

/-- What is pushed in round `i`: the last round, `n`, comes after the loop. -/
def entryValue (n i : Nat) : Int := if i < n then 1 else 0

namespace HandOff

/-- The memory in the beginning is arbitrary. -/
def start (next : Nat → Nat) (value : Nat → Int) : HandOff :=
  ⟨System.start Thread, myqueueInit next value, .locking 0, .locking, 0, [], []⟩

def phase (σ : HandOff) : Thread → Phase
  | .populate => σ.populate.phase
  | .sum => σ.sum.phase

/-- The functions of the mutex are called where the program calls them. -/
def calls (σ : HandOff) : Event Thread → Bool
  | .lock t => σ.phase t = .locking
  | .unlock t => σ.phase t = .unlocking
  | _ => true

/-- A step of `populate` with `n` rounds of its loop. -/
def populateStep (n : Nat) (σ : HandOff) (entry : Nat) : Option HandOff :=
  match σ.populate with
  | .locking i =>
    -- `c_mutex_lock` has returned; `malloc` returns memory that is not in use.
    if σ.mutex.place .populate = .inside ∧ entry ≠ NULL ∧ entry ≠ head ∧
        σ.queue.allocated entry = false then
      some { σ with queue := σ.queue.allocate entry (entryValue n i), populate := .terminating i entry }
    else none
  | .terminating i entry =>
    some { σ with queue := σ.queue.terminate entry, populate := .linking i entry }
  | .linking i entry =>
    some { σ with queue := σ.queue.link entry, populate := .extending i entry,
                  pushed := σ.pushed ++ [entryValue n i] }
  | .extending i entry => some { σ with queue := σ.queue.extend entry, populate := .unlocking i }
  | .unlocking i =>
    if σ.mutex.place .populate = .outside then
      some { σ with populate := if i < n then .locking (i + 1) else .finished }
    else none
  | .finished => none

def sumStep (σ : HandOff) : Option HandOff :=
  match σ.sum with
  | .locking =>
    if σ.mutex.place .sum = .inside then
      some { σ with sum := if myqueueIsEmpty σ.queue then .continuing else .popping }
    else none
  | .continuing =>
    if σ.mutex.place .sum = .outside then some { σ with sum := .locking } else none
  | .popping =>
    -- The assertion of `myqueue_pop`.
    if myqueueIsEmpty σ.queue then none
    else
      let entry := σ.queue.next head
      some { σ with sum := .unlinking entry (σ.queue.value entry) }
  | .unlinking entry buf =>
    let q := σ.queue.unlink
    some { σ with queue := q, popped := σ.popped ++ [buf],
                  sum := if q.next head = NULL then .relinking entry buf else .freeing entry buf }
  | .relinking entry buf => some { σ with queue := σ.queue.relink, sum := .freeing entry buf }
  | .freeing entry buf => some { σ with queue := σ.queue.free entry, sum := .unlocking buf }
  | .unlocking buf =>
    if σ.mutex.place .sum = .outside then
      if buf = 0 then some { σ with sum := .finished }
      else (intAdd? σ.total buf).map fun total => { σ with total := total, sum := .locking }
    else none
  | .finished => none

def step (n : Nat) (σ : HandOff) : HandOffEvent → Option HandOff
  | .mutex e => if σ.calls e then (σ.mutex.step e).map fun μ => { σ with mutex := μ } else none
  | .populate entry => σ.populateStep n entry
  | .sum => σ.sumStep

/-! ### The outcomes of the steps -/

inductive MutexStep (σ : HandOff) : HandOff → Prop
  | mk {e : Event Thread} {μ : System Thread} (hcalls : σ.calls e = true)
      (hstep : σ.mutex.step e = some μ) : MutexStep σ { σ with mutex := μ }

inductive PopulateStep (n : Nat) (σ : HandOff) : HandOff → Prop
  | allocate {i entry : Nat} (hpc : σ.populate = .locking i) (hplace : σ.mutex.place .populate = .inside)
      (hnull : entry ≠ NULL) (hhead : entry ≠ head) (hfresh : σ.queue.allocated entry = false) :
    PopulateStep n σ { σ with queue := σ.queue.allocate entry (entryValue n i),
                              populate := .terminating i entry }
  | terminate {i entry : Nat} (hpc : σ.populate = .terminating i entry) :
    PopulateStep n σ { σ with queue := σ.queue.terminate entry, populate := .linking i entry }
  | link {i entry : Nat} (hpc : σ.populate = .linking i entry) :
    PopulateStep n σ { σ with queue := σ.queue.link entry, populate := .extending i entry,
                              pushed := σ.pushed ++ [entryValue n i] }
  | extend {i entry : Nat} (hpc : σ.populate = .extending i entry) :
    PopulateStep n σ { σ with queue := σ.queue.extend entry, populate := .unlocking i }
  | again {i : Nat} (hpc : σ.populate = .unlocking i) (hplace : σ.mutex.place .populate = .outside)
      (hi : i < n) : PopulateStep n σ { σ with populate := .locking (i + 1) }
  | exit {i : Nat} (hpc : σ.populate = .unlocking i) (hplace : σ.mutex.place .populate = .outside)
      (hi : n ≤ i) : PopulateStep n σ { σ with populate := .finished }

inductive SumStep (σ : HandOff) : HandOff → Prop
  | empty (hpc : σ.sum = .locking) (hplace : σ.mutex.place .sum = .inside) :
    SumStep σ { σ with sum := .continuing }
  | nonempty (hpc : σ.sum = .locking) (hplace : σ.mutex.place .sum = .inside)
      (hqueue : ¬ myqueueIsEmpty σ.queue = true) : SumStep σ { σ with sum := .popping }
  | continue (hpc : σ.sum = .continuing) (hplace : σ.mutex.place .sum = .outside) :
    SumStep σ { σ with sum := .locking }
  | first (hpc : σ.sum = .popping) (hqueue : ¬ myqueueIsEmpty σ.queue = true) :
    SumStep σ { σ with sum := .unlinking (σ.queue.next head) (σ.queue.value (σ.queue.next head)) }
  | unlinkLast {entry : Nat} {buf : Int} (hpc : σ.sum = .unlinking entry buf)
      (hqueue : σ.queue.unlink.next head = NULL) :
    SumStep σ { σ with queue := σ.queue.unlink, sum := .relinking entry buf,
                       popped := σ.popped ++ [buf] }
  | unlink {entry : Nat} {buf : Int} (hpc : σ.sum = .unlinking entry buf)
      (hqueue : σ.queue.unlink.next head ≠ NULL) :
    SumStep σ { σ with queue := σ.queue.unlink, sum := .freeing entry buf,
                       popped := σ.popped ++ [buf] }
  | relink {entry : Nat} {buf : Int} (hpc : σ.sum = .relinking entry buf) :
    SumStep σ { σ with queue := σ.queue.relink, sum := .freeing entry buf }
  | free {entry : Nat} {buf : Int} (hpc : σ.sum = .freeing entry buf) :
    SumStep σ { σ with queue := σ.queue.free entry, sum := .unlocking buf }
  | stop (hpc : σ.sum = .unlocking 0) (hplace : σ.mutex.place .sum = .outside) :
    SumStep σ { σ with sum := .finished }
  | add {buf total : Int} (hpc : σ.sum = .unlocking buf) (hplace : σ.mutex.place .sum = .outside)
      (hbuf : buf ≠ 0) (hadd : intAdd? σ.total buf = some total) :
    SumStep σ { σ with total := total, sum := .locking }

variable {n : Nat} {σ σ' : HandOff}

theorem populateStep_cases {entry : Nat} (h : σ.populateStep n entry = some σ') :
    PopulateStep n σ σ' := by
  unfold populateStep at h
  split at h
  case h_1 i hpc =>
    split_ifs at h with hguard
    cases h
    exact .allocate hpc hguard.1 hguard.2.1 hguard.2.2.1 hguard.2.2.2
  case h_2 i a hpc => cases h; exact .terminate hpc
  case h_3 i a hpc => cases h; exact .link hpc
  case h_4 i a hpc => cases h; exact .extend hpc
  case h_5 i hpc =>
    split_ifs at h with hplace hi
    · cases h
      exact .again hpc hplace hi
    · cases h
      exact .exit hpc hplace (Nat.le_of_not_lt hi)
  case h_6 => cases h

theorem sumStep_cases (h : σ.sumStep = some σ') : SumStep σ σ' := by
  unfold sumStep at h
  split at h
  case h_1 hpc =>
    split_ifs at h with hplace hqueue
    · cases h
      exact .empty hpc hplace
    · cases h
      exact .nonempty hpc hplace hqueue
  case h_2 hpc =>
    split_ifs at h with hplace
    cases h
    exact .continue hpc hplace
  case h_3 hpc =>
    split_ifs at h with hqueue
    cases h
    exact .first hpc hqueue
  case h_4 entry buf hpc =>
    cases h
    split_ifs with hqueue
    · exact .unlinkLast hpc hqueue
    · exact .unlink hpc hqueue
  case h_5 entry buf hpc => cases h; exact .relink hpc
  case h_6 entry buf hpc => cases h; exact .free hpc
  case h_7 buf hpc =>
    split_ifs at h with hplace hbuf
    · subst hbuf
      cases h
      exact .stop hpc hplace
    · obtain ⟨total, hadd, rfl⟩ := Option.map_eq_some_iff.mp h
      exact .add hpc hplace hbuf hadd
  case h_8 => cases h

theorem step_cases {e : HandOffEvent} (h : σ.step n e = some σ') :
    MutexStep σ σ' ∨ PopulateStep n σ σ' ∨ SumStep σ σ' := by
  cases e with
  | mutex e =>
    left
    simp only [step] at h
    split_ifs at h with hcalls
    obtain ⟨μ, hstep, rfl⟩ := Option.map_eq_some_iff.mp h
    exact .mk hcalls hstep
  | populate entry => exact Or.inr (Or.inl (populateStep_cases h))
  | sum => exact Or.inr (Or.inr (sumStep_cases h))

end HandOff
end OsExercises.SpinMutex
