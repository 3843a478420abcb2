import OsExercises.Lib.CInt
import OsExercises.Lib.Family
import Mathlib.Tactic.Ring

/-!
# A child process and a thread that add to the same variable

`main` and `accumulate` of `src/exercise03/task_3/task_3a.c`. The child adds to its copy of `accumulation`,
the thread to the variable itself (`printsSum`). What `printf` has put into the buffer of `stdout` is copied
by `fork` as well: unless the output is a terminal, where each line is written at once, the child writes its
copy of the first line when it exits.
-/

namespace OsExercises.Accumulate
open Processes Transition

def EXIT_SUCCESS : Int := 0
def EXIT_FAILURE : Int := 1

/-! ### The code -/

/-- What `main` prints, with the number behind `%lu`. -/
inductive Line where
  | start (accumulation : Nat)
  | afterFork (accumulation : Nat)
  | afterThread (accumulation : Nat)
deriving DecidableEq

inductive Pc where
  /-- At `fork`. -/
  | forking
  /-- In the child, at the condition of the loop. -/
  | adding (i : Int)
  /-- At `wait`. -/
  | waiting
  /-- At `pthread_create`. -/
  | creating
  /-- The thread is at the condition of its loop, `main` is in `pthread_join`. -/
  | accumulating (i : Int)
  /-- The thread has ended. -/
  | joining
  | exited (status : Int)
  | undefined
deriving DecidableEq

/-- A process: `buffer` is what `stdout` holds back, `written` what the process has written. -/
structure State where
  pc : Pc
  accumulation : Int
  buffer : List Line
  written : List Line
deriving DecidableEq

/-- `terminal` says whether `stdout` is one. -/
def printf (terminal : Bool) (l : Line) (s : State) : State :=
  if terminal then { s with written := s.written ++ [l] } else { s with buffer := s.buffer ++ [l] }

/-- `exit(status)`, and `return status` in `main`. -/
def exit (status : Int) (s : State) : State :=
  { s with pc := .exited status, buffer := [], written := s.written ++ s.buffer }

/-- An iteration of `for (int i = 0; i < n; i++) accumulation += i`; `i++` stays below `n`. -/
def iterate (n : Int) (s : State) (i : Int) (again : Int → Pc) (behind : State) : State :=
  if i < n then
    match longLongAdd? s.accumulation i with
    | some accumulation => { s with pc := again (i + 1), accumulation := accumulation }
    | none => { s with pc := .undefined }
  else behind

/-- Behind `fork`: the child has written nothing yet. -/
def afterFork (s : State) (pid : Int) : State :=
  if pid = -1 then exit EXIT_FAILURE s
  else if pid = 0 then { s with pc := .adding 0, written := [] }
  else { s with pc := .waiting }

/-- `created` says whether `pthread_create` succeeds. -/
def next (terminal created : Bool) (n : Int) (s : State) : Action State :=
  match s.pc with
  | .forking => .fork (afterFork s)
  | .adding i => .call fun _ => iterate n s i .adding (exit EXIT_SUCCESS s)
  | .waiting => .wait { printf terminal (.afterFork (toSize s.accumulation)) s with pc := .creating }
  -- the error is a positive number, so `pthread_join` is called for a thread that is not there
  | .creating => .call fun _ => { s with pc := if created then .accumulating 0 else .undefined }
  | .accumulating i => .call fun _ => iterate n s i .accumulating { s with pc := .joining }
  | .joining => .call fun _ => exit EXIT_SUCCESS (printf terminal (.afterThread (toSize s.accumulation)) s)
  | .exited _ | .undefined => .ended

/-- Behind `atoi`. -/
def start (terminal : Bool) (n : Int) : State :=
  if n < 1 then ⟨.exited EXIT_FAILURE, 0, [], []⟩ else printf terminal (.start (toSize 0)) ⟨.forking, 0, [], []⟩

/-! ### The sums -/

/-- What the iterations before `i` add up to. -/
def Summed (i : Int) (accumulation : Int) : Prop := 0 ≤ i ∧ 2 * accumulation = i * (i - 1)

variable {terminal created : Bool} {n i : Int} {s : State} {forks : Nat → Bool} {ls : List Line}

theorem summed_bounds {a : Int} (h : Summed i a) (hi : i ≤ INT_MAX) : 0 ≤ a ∧ a < 2 ^ 61 := by
  obtain ⟨h0, hsum⟩ := h
  have hmax : i ≤ 2 ^ 31 - 1 := hi
  have hle : i * (i - 1) ≤ (2 ^ 31 - 1) * (2 ^ 31 - 2) := by
    rcases Int.le_iff_eq_or_lt.mp h0 with rfl | hpos
    · decide
    · exact Int.mul_le_mul hmax (by omega) (by omega) (by decide)
  have hnonneg : 0 ≤ i * (i - 1) := by
    rcases Int.le_iff_eq_or_lt.mp h0 with rfl | hpos
    · decide
    · exact Int.mul_nonneg h0 (by omega)
  omega

/-- The additions do not overflow. -/
theorem iterate_eq (again : Int → Pc) (behind : State) (hn : n ≤ INT_MAX) (h : Summed i s.accumulation) :
    (i < n ∧ iterate n s i again behind = { s with pc := again (i + 1), accumulation := s.accumulation + i } ∧
      Summed (i + 1) (s.accumulation + i)) ∨ n ≤ i ∧ iterate n s i again behind = behind := by
  by_cases hi : i < n
  · have hbounds := summed_bounds h (by omega)
    have hmax : n ≤ 2 ^ 31 - 1 := hn
    have hadd : longLongAdd? s.accumulation i = some (s.accumulation + i) :=
      if_pos ⟨by unfold LLONG_MIN; have := h.1; omega, by unfold LLONG_MAX; omega⟩
    refine .inl ⟨hi, ?_, by have := h.1; omega, ?_⟩
    · rw [iterate, if_pos hi, hadd]
    · have hsum := h.2
      rw [Int.mul_add, hsum]
      ring
  · exact .inr ⟨by omega, if_neg hi⟩

/-! ### The output -/

/-- `ls` has been printed, to the terminal or to the buffer. -/
def Printed (terminal : Bool) (ls : List Line) (s : State) : Prop :=
  if terminal then s.written = ls ∧ s.buffer = [] else s.written = [] ∧ s.buffer = ls

theorem Printed.printf (h : Printed terminal ls s) (l : Line) :
    Printed terminal (ls ++ [l]) (Accumulate.printf terminal l s) := by
  cases terminal with
  | true => exact ⟨congrArg (· ++ [l]) h.1, h.2⟩
  | false => exact ⟨h.1, congrArg (· ++ [l]) h.2⟩

theorem Printed.exit (h : Printed terminal ls s) (status : Int) : (Accumulate.exit status s).written = ls := by
  cases terminal with
  | true =>
    obtain ⟨hwritten, hbuffer⟩ : s.written = ls ∧ s.buffer = [] := h
    rw [Accumulate.exit, hwritten, hbuffer, List.append_nil]
  | false =>
    obtain ⟨hwritten, hbuffer⟩ : s.written = [] ∧ s.buffer = ls := h
    rw [Accumulate.exit, hwritten, hbuffer, List.nil_append]

/-- What the child writes when it exits: its copy of the buffer. -/
def copied (terminal : Bool) : List Line := if terminal then [] else [.start 0]

def sumLines (n : Int) : List Line := [.start 0, .afterFork 0, .afterThread (n * (n - 1) / 2).toNat]

/-! ### The invariant -/

/-- The states of the child. -/
def IsLeaf (s : State) : Prop :=
  match s.pc with
  | .adding _ | .exited _ | .undefined => True
  | _ => False

theorem leaves : Leaves (next terminal created n) IsLeaf := by
  intro s hs
  unfold IsLeaf at hs
  cases hpc : s.pc with
  | exited | undefined => exact .inl (by simp [next, hpc, Action.isEnded])
  | adding i =>
    refine .inr ⟨fun _ => iterate n s i .adding (exit EXIT_SUCCESS s), by simp only [next, hpc], fun _ => ?_⟩
    unfold iterate
    split
    · split <;> trivial
    · trivial
  | _ => rw [hpc] at hs; cases hs

/-- Where the parent is that has not made its child. -/
def Before (terminal : Bool) (forks : Nat → Bool) (calls : Nat) (s : State) : Prop :=
  match s.pc with
  | .forking => calls = 0 ∧ s.accumulation = 0 ∧ Printed terminal [.start 0] s
  | .exited r => r = EXIT_FAILURE ∧ forks 0 = false ∧ s.written = [.start 0]
  | _ => False

/-- Where the parent is that has made its child; `ended` says whether the child has ended. -/
def After (terminal created : Bool) (n : Int) (ended : Prop) (s : State) : Prop :=
  match s.pc with
  | .waiting => s.accumulation = 0 ∧ Printed terminal [.start 0] s
  | .creating => ended ∧ s.accumulation = 0 ∧ Printed terminal [.start 0, .afterFork 0] s
  | .accumulating i => ended ∧ created = true ∧ i ≤ n ∧ Summed i s.accumulation ∧
      Printed terminal [.start 0, .afterFork 0] s
  | .joining => ended ∧ created = true ∧ Summed n s.accumulation ∧ Printed terminal [.start 0, .afterFork 0] s
  | .exited r => ended ∧ r = EXIT_SUCCESS ∧ created = true ∧ s.written = sumLines n
  | .undefined => ended ∧ created = false
  | _ => False

def IsChild (terminal : Bool) (n : Int) (c : Process State) : Prop :=
  match c.state.pc with
  | .adding i => i ≤ n ∧ Summed i c.state.accumulation ∧ c.state.written ++ c.state.buffer = copied terminal ∧
      c.reaped = false
  | .exited r => r = EXIT_SUCCESS ∧ c.state.written = copied terminal
  | _ => False

/-- The steps that a process has still to take, with those of the child it makes. -/
def Pc.weight (n : Int) : Pc → Nat
  | .forking => 2 * n.toNat + 6
  | .adding i => (n - i).toNat + 1
  | .waiting => n.toNat + 4
  | .creating => n.toNat + 3
  | .accumulating i => (n - i).toNat + 2
  | .joining => 1
  | _ => 0

def weight (n : Int) (parent : Process State) (children : List (Process State)) : Nat :=
  parent.state.pc.weight n + (children.map fun c => c.state.pc.weight n).sum

def Inv (terminal created : Bool) (n : Int) (forks : Nat → Bool) (parent : Process State)
    (children : List (Process State)) (calls : Nat) : Prop :=
  children = [] ∧ Before terminal forks calls parent.state ∨
  ∃ c, children = [c] ∧ forks 0 = true ∧ IsChild terminal n c ∧
    After terminal created n (∃ r, c.state.pc = .exited r) parent.state

variable {parent parent' c : Process State} {children children' : List (Process State)} {calls calls' : Nat}

theorem Inv.start (hn : 1 ≤ n) :
    Inv terminal created n forks ⟨none, Accumulate.start terminal n, false⟩ [] 0 := by
  refine .inl ⟨rfl, ?_⟩
  rw [Accumulate.start, if_neg (by omega)]
  cases terminal with
  | true => exact ⟨rfl, rfl, rfl, rfl⟩
  | false => exact ⟨rfl, rfl, rfl, rfl⟩

theorem fork_eq {k : Int → State} (h : next terminal created n s = .fork k) : s.pc = .forking ∧ k = afterFork s := by
  unfold next at h
  split at h <;> cases h
  exact ⟨by assumption, rfl⟩

theorem wait_eq {s' : State} (h : next terminal created n s = .wait s') : s.pc = .waiting ∧
    s' = { printf terminal (.afterFork (toSize s.accumulation)) s with pc := .creating } := by
  unfold next at h
  split at h <;> cases h
  exact ⟨by assumption, rfl⟩

/-- The child starts with a copy of the buffer. -/
theorem isChild_afterFork (hn : 1 ≤ n) (hsum : s.accumulation = 0) (hprinted : Printed terminal [.start 0] s) :
    IsChild terminal n ⟨some 0, afterFork s 0, false⟩ := by
  refine ⟨by omega, ⟨Int.le_refl 0, ?_⟩, ?_, rfl⟩
  · show 2 * s.accumulation = _
    rw [hsum]
    rfl
  · show [] ++ s.buffer = copied terminal
    cases terminal with
    | true => exact hprinted.2
    | false => exact hprinted.2

theorem isChild_call (hmax : n ≤ INT_MAX) (h : IsChild terminal n c) {k : Bool → State} {b : Bool}
    (hnext : next terminal created n c.state = .call k) :
    IsChild terminal n { c with state := k b } ∧ (k b).pc.weight n < c.state.pc.weight n ∧
      ¬ ∃ r, c.state.pc = .exited r := by
  unfold IsChild at h
  cases hpc : c.state.pc <;> rw [hpc] at h <;> try exact h.elim
  case exited r => simp [next, hpc] at hnext
  case adding i =>
    obtain ⟨hi, hsum, hcopied, hreaped⟩ := h
    simp only [next, hpc, Action.call.injEq] at hnext
    subst hnext
    rcases iterate_eq .adding (exit EXIT_SUCCESS c.state) hmax hsum with
      ⟨hlt, heq, hsum'⟩ | ⟨hle, heq⟩
    · rw [heq]
      refine ⟨⟨by omega, hsum', hcopied, hreaped⟩, ?_, fun h => by simp at h⟩
      show (n - (i + 1)).toNat + 1 < (n - i).toNat + 1
      omega
    · rw [heq]
      exact ⟨⟨rfl, hcopied⟩, Nat.succ_pos _, fun h => by simp at h⟩

/-- The parent goes on with its thread. -/
theorem after_call (hn : 1 ≤ n) (hmax : n ≤ INT_MAX) {ended : Prop} (h : After terminal created n ended s)
    {k : Bool → State} {b : Bool} (hnext : next terminal created n s = .call k) :
    After terminal created n ended (k b) ∧ (k b).pc.weight n < s.pc.weight n := by
  unfold After at h
  cases hpc : s.pc <;> rw [hpc] at h <;> simp only [next, hpc, Action.call.injEq, reduceCtorEq] at hnext
  case adding i => exact h.elim
  case creating =>
    subst hnext
    obtain ⟨hended, hsum, hprinted⟩ := h
    cases created with
    | true =>
      refine ⟨⟨hended, rfl, by omega, ⟨Int.le_refl 0, ?_⟩, hprinted⟩, ?_⟩
      · show 2 * s.accumulation = _
        rw [hsum]
        rfl
      · show (n - 0).toNat + 2 < n.toNat + 3
        omega
    | false => exact ⟨⟨hended, rfl⟩, Nat.succ_pos _⟩
  case accumulating i =>
    subst hnext
    obtain ⟨hended, hcreated, hi, hsum, hprinted⟩ := h
    rcases iterate_eq .accumulating { s with pc := .joining } hmax hsum with
      ⟨hlt, heq, hsum'⟩ | ⟨hle, heq⟩
    · rw [heq]
      refine ⟨⟨hended, hcreated, by omega, hsum', hprinted⟩, ?_⟩
      show (n - (i + 1)).toNat + 2 < (n - i).toNat + 2
      omega
    · obtain rfl : i = n := by omega
      rw [heq]
      refine ⟨⟨hended, hcreated, hsum, hprinted⟩, ?_⟩
      show 1 < (i - i).toNat + 2
      omega
  case joining =>
    subst hnext
    obtain ⟨hended, hcreated, hsum, hprinted⟩ := h
    refine ⟨⟨hended, rfl, hcreated, ?_⟩, Nat.one_pos⟩
    obtain ⟨h0, hlt⟩ := summed_bounds hsum hmax
    have hsum' := hsum.2
    have hvalue : toSize s.accumulation = (n * (n - 1) / 2).toNat := by
      unfold toSize
      omega
    rw [sumLines, ← hvalue]
    exact (hprinted.printf _).exit EXIT_SUCCESS

theorem After.mono {ended ended' : Prop} (h : After terminal created n ended s) (himp : ended → ended') :
    After terminal created n ended' s := by
  unfold After at h ⊢
  split at h
  · exact h
  · exact ⟨himp h.1, h.2⟩
  · exact ⟨himp h.1, h.2⟩
  · exact ⟨himp h.1, h.2⟩
  · exact ⟨himp h.1, h.2⟩
  · exact ⟨himp h.1, h.2⟩
  · exact h.elim

theorem After.waited {ended : Prop} (h : After terminal created n ended s) (hpc : s.pc = .waiting) (hended : ended) :
    After terminal created n ended { printf terminal (.afterFork (toSize s.accumulation)) s with pc := .creating } := by
  rw [After, hpc] at h
  obtain ⟨hsum, hprinted⟩ := h
  have hprinted' := hprinted.printf (.afterFork (toSize s.accumulation))
  rw [hsum] at hprinted' ⊢
  cases terminal with
  | true => exact ⟨hended, hsum, hprinted'⟩
  | false => exact ⟨hended, hsum, hprinted'⟩

theorem exited_of_isChild (created : Bool) (h : IsChild terminal n c)
    (hended : c.reaped = true ∨ (next terminal created n c.state).isEnded = true) : ∃ r, c.state.pc = .exited r := by
  unfold IsChild at h
  cases hpc : c.state.pc <;> rw [hpc] at h <;> try exact h.elim
  case exited r => exact ⟨r, rfl⟩
  case adding i =>
    rcases hended with hreaped | hended
    · rw [h.2.2.2] at hreaped; cases hreaped
    · simp [next, hpc, Action.isEnded] at hended

theorem getElem?_singleton {α : Type*} {x y : α} {j : Nat} (h : [x][j]? = some y) : j = 0 ∧ y = x := by
  cases j with
  | zero => exact ⟨rfl, (Option.some.inj h).symm⟩
  | succ j => cases h

theorem Inv.move (hn : 1 ≤ n) (hmax : n ≤ INT_MAX) (h : Inv terminal created n forks parent children calls)
    (hm : Move (next terminal created n) forks parent children calls parent' children' calls') :
    Inv terminal created n forks parent' children' calls' ∧
      weight n parent' children' < weight n parent children := by
  cases hm with
  | fork hnext hsucceeds =>
    obtain ⟨hpc, rfl⟩ := fork_eq hnext
    rcases h with ⟨rfl, hbefore⟩ | ⟨c, rfl, -, -, hafter⟩
    · rw [Before, hpc] at hbefore
      obtain ⟨rfl, hsum, hprinted⟩ := hbefore
      refine ⟨.inr ⟨_, rfl, hsucceeds, isChild_afterFork hn hsum hprinted, hsum, hprinted⟩, ?_⟩
      show n.toNat + 4 + ((n - 0).toNat + 1 + 0) < parent.state.pc.weight n + 0
      rw [hpc, Pc.weight]
      omega
    · rw [After, hpc] at hafter
      exact hafter.elim
  | forkFailed hnext hfails =>
    obtain ⟨hpc, rfl⟩ := fork_eq hnext
    rcases h with ⟨rfl, hbefore⟩ | ⟨c, rfl, -, -, hafter⟩
    · rw [Before, hpc] at hbefore
      obtain ⟨rfl, hsum, hprinted⟩ := hbefore
      refine ⟨.inl ⟨rfl, rfl, hfails, hprinted.exit EXIT_FAILURE⟩, Nat.add_lt_add_right ?_ _⟩
      rw [hpc]
      exact Nat.succ_pos _
    · rw [After, hpc] at hafter
      exact hafter.elim
  | @reap j c s hnext hc hended hreaped =>
    obtain ⟨hpc, rfl⟩ := wait_eq hnext
    rcases h with ⟨rfl, -⟩ | ⟨d, rfl, hforks, hchild, hafter⟩
    · cases hc
    · obtain ⟨rfl, rfl⟩ := getElem?_singleton hc
      have hexited := exited_of_isChild created hchild (.inr hended)
      refine ⟨.inr ⟨_, rfl, hforks, ?_, hafter.waited hpc hexited⟩, Nat.add_lt_add_right ?_ _⟩
      · obtain ⟨r, hr⟩ := hexited
        rw [IsChild, hr] at hchild ⊢
        exact hchild
      · rw [hpc]
        exact Nat.lt_succ_self _
  | childless hnext hall =>
    obtain ⟨hpc, rfl⟩ := wait_eq hnext
    rcases h with ⟨rfl, hbefore⟩ | ⟨d, rfl, hforks, hchild, hafter⟩
    · rw [Before, hpc] at hbefore
      exact hbefore.elim
    · have hexited := exited_of_isChild created hchild (.inl (hall d List.mem_cons_self))
      refine ⟨.inr ⟨d, rfl, hforks, hchild, hafter.waited hpc hexited⟩, Nat.add_lt_add_right ?_ _⟩
      rw [hpc]
      exact Nat.lt_succ_self _
  | @call k b hnext =>
    rcases h with ⟨rfl, hbefore⟩ | ⟨c, rfl, hforks, hchild, hafter⟩
    · unfold Before at hbefore
      split at hbefore
      · next hpc => simp [next, hpc] at hnext
      · next hpc => simp [next, hpc] at hnext
      · exact hbefore.elim
    · obtain ⟨hafter', hlt⟩ := after_call hn hmax hafter (b := b) hnext
      exact ⟨.inr ⟨c, rfl, hforks, hchild, hafter'⟩, Nat.add_lt_add_right hlt _⟩
  | @child j c k b hc hnext =>
    rcases h with ⟨rfl, -⟩ | ⟨d, rfl, hforks, hchild, hafter⟩
    · cases hc
    · obtain ⟨rfl, rfl⟩ := getElem?_singleton hc
      obtain ⟨hchild', hlt, hgoing⟩ := isChild_call hmax hchild (b := b) hnext
      refine ⟨.inr ⟨_, rfl, hforks, hchild', hafter.mono fun hended => absurd hended hgoing⟩, ?_⟩
      exact Nat.add_lt_add_left (Nat.add_lt_add_right hlt _) _

/-! ### Runs -/

theorem After.waiting {ended : Prop} (h : After terminal created n ended s)
    (hprinted : .afterFork 0 ∈ s.written ++ s.buffer) : ended := by
  unfold After at h
  split at h
  · have hnot : .afterFork 0 ∉ s.written ++ s.buffer := by
      obtain ⟨-, h⟩ := h
      cases terminal with
      | true => simp [h.1, h.2]
      | false => simp [h.1, h.2]
    exact absurd hprinted hnot
  · exact h.1
  · exact h.1
  · exact h.1
  · exact h.1
  · exact h.1
  · exact h.elim

theorem IsChild.finished (h : IsChild terminal n c) (hexited : ∃ r, c.state.pc = .exited r) :
    c.state.pc = .exited EXIT_SUCCESS ∧ c.state.written = copied terminal := by
  obtain ⟨r, hr⟩ := hexited
  rw [IsChild, hr] at h
  exact ⟨hr.trans (congrArg Pc.exited h.1), h.2⟩

/-- What a run has come to. -/
structure Prints (terminal created : Bool) (n : Int) (forks : Nat → Bool) (events : List Event) (σ : Table State) :
    Prop where
  ends : events.length ≤ 2 * n.toNat + 6
  /-- The parent prints its second line when the child has written all that it will write. -/
  waits : ∀ parent child, σ.processes = [parent, child] →
    .afterFork 0 ∈ parent.state.written ++ parent.state.buffer →
      child.state.pc = .exited EXIT_SUCCESS ∧ child.state.written = copied terminal
  completes : Final (Table.step (next terminal created n) forks) σ →
    (forks 0 = false → σ.processes.map (fun c => c.state.written) = [[.start 0]]) ∧
    (forks 0 = true → created = true → σ.processes.map (fun c => c.state.written) = [sumLines n, copied terminal])

theorem printsSum (terminal created : Bool) (n : Int) (forks : Nat → Bool) (events : List Event) (σ : Table State)
    (hn : 1 ≤ n) (hmax : n ≤ INT_MAX)
    (hr : run (Table.step (next terminal created n) forks) (Table.start (start terminal n)) events = some σ) :
    Prints terminal created n forks events σ := by
  obtain ⟨parent, children, hfamily, hinv, hlength⟩ := family_of_run (Inv terminal created n forks) (weight n)
    leaves (fun parent children calls k _ hnext => by
      obtain ⟨-, rfl⟩ := fork_eq hnext
      trivial) (fun _ _ _ _ _ _ hinv _ hm => hinv.move hn hmax hm) (Inv.start hn) hr
  have hprocesses := hfamily.processes
  refine ⟨?_, fun p c heq hprinted => ?_, fun hfinal => ?_⟩
  · have hstart : weight n ⟨none, start terminal n, false⟩ [] = 2 * n.toNat + 6 := by
      rw [start, if_neg (by omega)]
      cases terminal <;> rfl
    omega
  · rw [hprocesses] at heq
    obtain ⟨rfl, rfl⟩ := List.cons.inj heq
    rcases hinv with ⟨hnone, -⟩ | ⟨d, hd, -, hchild, hafter⟩
    · cases hnone
    · obtain rfl : c = d := (List.cons.inj hd).1
      exact hchild.finished (hafter.waiting hprinted)
  · obtain ⟨hended, hchildren⟩ := hfamily.ended_of_final leaves hfinal
    rw [hprocesses]
    rcases hinv with ⟨rfl, hbefore⟩ | ⟨c, rfl, hforks, hchild, hafter⟩
    · unfold Before at hbefore
      split at hbefore
      · next hpc => simp [next, hpc, Action.isEnded] at hended
      · obtain ⟨-, hfails, hwritten⟩ := hbefore
        refine ⟨fun _ => ?_, fun hforks => ?_⟩
        · rw [List.map_singleton, hwritten]
        · rw [hfails] at hforks; cases hforks
      · exact hbefore.elim
    · refine ⟨fun hfails => ?_, fun _ hcreated => ?_⟩
      · rw [hforks] at hfails; cases hfails
      · obtain ⟨-, hcopied⟩ := hchild.finished (exited_of_isChild created hchild
          (.inr (hchildren c List.mem_cons_self)))
        have hwritten : parent.state.written = sumLines n := by
          unfold After at hafter
          split at hafter
          case h_5 => exact hafter.2.2.2
          case h_6 => rw [hcreated] at hafter; cases hafter.2
          case h_7 => exact hafter.elim
          all_goals next hpc => simp [next, hpc, Action.isEnded] at hended
        simp only [List.map_cons, List.map_nil, hwritten, hcopied]

/-- The output goes to a file; the thread adds after the child has exited. -/
def toFile : List Event :=
  [.fork 0, .call 1 true, .call 1 true, .call 1 true, .call 1 true, .wait 0 (some 1), .call 0 true, .call 0 true,
    .call 0 true, .call 0 true, .call 0 true, .call 0 true]

theorem printsSum_toFile : ∃ σ,
    run (Table.step (next false true 3) fun _ => true) (Table.start (start false 3)) toFile = some σ ∧
    σ.processes.map (fun c => c.state.written) =
      [[.start 0, .afterFork 0, .afterThread 3], [.start 0]] ∧ Prints false true 3 (fun _ => true) toFile σ := by
  have heval : (run (Table.step (next false true 3) fun _ => true) (Table.start (start false 3)) toFile).map
      (fun σ => σ.processes.map fun c => c.state.written) =
        some [[.start 0, .afterFork 0, .afterThread 3], [.start 0]] := by decide +kernel
  obtain ⟨σ, hr, hwritten⟩ := Option.map_eq_some_iff.mp heval
  exact ⟨σ, hr, hwritten, printsSum false true 3 (fun _ => true) toFile σ (by decide) (by decide) hr⟩

end OsExercises.Accumulate
