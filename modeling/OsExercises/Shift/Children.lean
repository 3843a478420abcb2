import OsExercises.Lib.Family
import OsExercises.Shift.StringShiftRight

/-!
# A child for each argument

`main` of `src/exercise03/task_2/task_2.c`: a child for each argument, which shifts its string and prints
it, and a parent that waits for all of them. The strings are copied by `fork`, so a child changes its own
copy. `malloc` is taken to succeed. Each argument is printed by exactly one child, before the parent prints
`Done.`; if a `fork` fails, the parent exits at once and leaves the children to themselves
(`printsEach`).
-/

namespace OsExercises.Shift
open Processes Transition

def EXIT_SUCCESS : Int := 0
def EXIT_FAILURE : Int := 1

/-! ### The code -/

inductive Pc where
  /-- At `fork`. -/
  | forking (arg_index : Nat)
  /-- In a child, at `string_shift_right`. -/
  | shifting (arg_index : Nat)
  /-- At `wait`. -/
  | waiting (arg_index : Nat)
  | exited (status : Int)
  | undefined
deriving DecidableEq

inductive Output where
  | text (t : Text)
  /-- `Done.` -/
  | done
deriving DecidableEq

structure State where
  pc : Pc
  shared_strings : List Bytes
  printed : List Output
deriving DecidableEq

/-- At the condition of the loop that waits, and what comes behind it. -/
def waitLoop (argc : Nat) (s : State) (arg_index : Nat) : State :=
  if arg_index < argc then { s with pc := .waiting arg_index }
  else { s with pc := .exited EXIT_SUCCESS, printed := s.printed ++ [.done] }

/-- At the condition of the loop that forks. -/
def forkLoop (argc : Nat) (s : State) (arg_index : Nat) : State :=
  if arg_index < argc then { s with pc := .forking arg_index } else waitLoop argc s 0

/-- Behind `fork`. -/
def afterFork (argc : Nat) (s : State) (arg_index : Nat) (pid : Int) : State :=
  if pid = -1 then { s with pc := .exited EXIT_FAILURE }
  else if pid = 0 then { s with pc := .shifting arg_index }
  else forkLoop argc s (arg_index + 1)

def shift (garbage : Nat → UInt8) (argv : List Bytes) (s : State) (arg_index : Nat) : Option State := do
  let input ← s.shared_strings[arg_index]?
  let original ← argv[arg_index]?
  let (text, input) ← stringShiftRight garbage arg_index input original
  some ⟨.exited EXIT_SUCCESS, s.shared_strings.set arg_index input, s.printed ++ [.text text]⟩

def next (garbage : Nat → UInt8) (argv : List Bytes) (s : State) : Action State :=
  match s.pc with
  | .forking arg_index => .fork (afterFork argv.length s arg_index)
  | .shifting arg_index => .call fun _ => (shift garbage argv s arg_index).getD { s with pc := .undefined }
  | .waiting arg_index => .wait (waitLoop argv.length s (arg_index + 1))
  | .exited _ | .undefined => .ended

def strcpy? (src : Bytes) : Option Bytes := (cString? src).map fun s => s ++ [NUL]

/-- Behind the loop that copies the arguments. -/
def start? (argv : List Bytes) : Option State :=
  (argv.mapM strcpy?).map fun strings => forkLoop argv.length ⟨.forking 0, strings, []⟩ 0

/-! ### The arguments -/

/-- The arguments in memory. -/
def argvOf (args : List Bytes) : List Bytes := args.map fun s => s ++ [NUL]

/-- Strings that `toupper` may be called with. -/
def Args (args : List Bytes) : Prop := ∀ s ∈ args, NUL ∉ s ∧ ∀ b ∈ s, IsChar b

instance (args : List Bytes) : Decidable (Args args) := inferInstanceAs (Decidable (∀ _ ∈ _, _))

/-- What is to be printed for the argument `k`. -/
def textOf (args : List Bytes) (k : Nat) : Text :=
  ⟨k, args.getD k [], (args.getD k []).map toupper, shifted (args.getD k [])⟩

variable {garbage : Nat → UInt8} {args : List Bytes} {forks : Nat → Bool} {k : Nat}

theorem start_eq (h : Args args) :
    start? (argvOf args) = some (forkLoop args.length ⟨.forking 0, argvOf args, []⟩ 0) := by
  have hcopy : ∀ l : List Bytes, Args l → (argvOf l).mapM strcpy? = some (argvOf l) := by
    intro l
    induction l with
    | nil => exact fun _ => rfl
    | cons s l ih =>
      intro hl
      obtain ⟨hs, hl⟩ := List.forall_mem_cons.mp hl
      have hstr : strcpy? (s ++ [NUL]) = some (s ++ [NUL]) := by
        rw [strcpy?, cString?_append hs.1]
        rfl
      simp only [argvOf, List.map_cons, List.mapM_cons, hstr] at ih ⊢
      rw [ih hl]
      rfl
  rw [start?, hcopy args h, argvOf, List.length_map]
  rfl

theorem shift_eq (garbage : Nat → UInt8) (h : Args args) (hk : k < args.length) :
    ∃ strings, shift garbage (argvOf args) ⟨.shifting k, argvOf args, []⟩ k =
      some ⟨.exited EXIT_SUCCESS, strings, [.text (textOf args k)]⟩ := by
  have hget : (argvOf args)[k]? = some (args[k] ++ [NUL]) := by
    rw [argvOf, List.getElem?_map, List.getElem?_eq_getElem hk]
    rfl
  obtain ⟨hnul, hchars⟩ := h args[k] (List.getElem_mem hk)
  refine ⟨(argvOf args).set k (args[k].map toupper ++ [NUL]), ?_⟩
  simp only [shift, hget, stringShiftRight_eq garbage k hnul hchars, Option.bind_eq_bind, Option.bind_some,
    textOf, List.getD_eq_getElem?_getD, List.getElem?_eq_getElem hk, Option.getD_some, List.nil_append]

/-! ### The invariant -/

/-- The states of the children. -/
def IsLeaf (s : State) : Prop :=
  match s.pc with
  | .forking _ | .waiting _ => False
  | _ => True

theorem pc_of_shift {argv : List Bytes} {s s' : State} (h : shift garbage argv s k = some s') :
    s'.pc = .exited EXIT_SUCCESS := by
  simp only [shift, Option.bind_eq_bind, Option.bind_eq_some_iff] at h
  obtain ⟨_, -, _, -, ⟨_, _⟩, -, h⟩ := h
  cases h
  rfl

theorem leaves : Leaves (next garbage (argvOf args)) IsLeaf := by
  intro s hs
  unfold IsLeaf at hs
  cases hpc : s.pc with
  | forking | waiting => rw [hpc] at hs; cases hs
  | exited | undefined => exact .inl (by simp [next, hpc, Action.isEnded])
  | shifting k =>
    refine .inr ⟨fun _ => (shift garbage (argvOf args) s k).getD { s with pc := .undefined }, ?_, fun _ => ?_⟩
    · simp only [next, hpc]
    · cases hshift : shift garbage (argvOf args) s k with
      | none => trivial
      | some s' =>
        show IsLeaf s'
        rw [IsLeaf, pc_of_shift hshift]
        trivial

/-- The child for the argument `k`. -/
def IsChild (args : List Bytes) (k : Nat) (c : Process State) : Prop :=
  c.state = ⟨.shifting k, argvOf args, []⟩ ∧ c.reaped = false ∨
    c.state.pc = .exited EXIT_SUCCESS ∧ c.state.printed = [.text (textOf args k)]

/-- Where the parent is, when it has made `n` children of which `reaped` have been waited for. -/
def ParentAt (args : List Bytes) (forks : Nat → Bool) (n reaped calls : Nat) (s : State) : Prop :=
  s.shared_strings = argvOf args ∧ (∀ k < n, forks k = true) ∧
    match s.pc with
    | .forking i => i < args.length ∧ n = i ∧ calls = i ∧ reaped = 0 ∧ s.printed = []
    | .waiting i => i < args.length ∧ n = args.length ∧ reaped = i ∧ s.printed = []
    | .exited r => (r = EXIT_SUCCESS ∧ n = args.length ∧ reaped = n ∧ s.printed = [.done]) ∨
        (r = EXIT_FAILURE ∧ n < args.length ∧ forks n = false ∧ reaped = 0 ∧ s.printed = [])
    | _ => False

structure Inv (args : List Bytes) (forks : Nat → Bool) (parent : Process State)
    (children : List (Process State)) (calls : Nat) : Prop where
  parent : ParentAt args forks children.length (children.countP Process.reaped) calls parent.state
  children : ∀ k c, children[k]? = some c → IsChild args k c

/-- The steps that the parent has still to take, and the child it makes in each. -/
def Pc.weight (argc : Nat) : Pc → Nat
  | .forking i => 2 * (argc - i) + argc + 1
  | .waiting i => argc - i
  | _ => 0

def weight (garbage : Nat → UInt8) (args : List Bytes) (parent : Process State)
    (children : List (Process State)) : Nat :=
  parent.state.pc.weight args.length + running (next garbage (argvOf args)) children

theorem length_argvOf (args : List Bytes) : (argvOf args).length = args.length := List.length_map _

theorem parentAt_waitLoop {s : State} {i n : Nat} (calls : Nat) (hstrings : s.shared_strings = argvOf args)
    (hforks : ∀ k < n, forks k = true) (hn : n = args.length) (hi : i ≤ args.length) (hprinted : s.printed = []) :
    ParentAt args forks n i calls (waitLoop args.length s i) ∧
      (waitLoop args.length s i).pc.weight args.length ≤ args.length - i := by
  unfold waitLoop
  split
  · next hlt => exact ⟨⟨hstrings, hforks, hlt, hn, rfl, hprinted⟩, Nat.le_refl _⟩
  · next hnot =>
    refine ⟨⟨hstrings, hforks, .inl ⟨rfl, hn, by omega, ?_⟩⟩, Nat.zero_le _⟩
    show s.printed ++ [.done] = [.done]
    rw [hprinted, List.nil_append]

theorem parentAt_forkLoop {s : State} {n : Nat} (hstrings : s.shared_strings = argvOf args)
    (hforks : ∀ k < n, forks k = true) (hn : n ≤ args.length) (hprinted : s.printed = []) :
    ParentAt args forks n 0 n (forkLoop args.length s n) ∧
      (forkLoop args.length s n).pc.weight args.length ≤ 2 * (args.length - n) + args.length + 1 := by
  unfold forkLoop
  split
  · next hlt => exact ⟨⟨hstrings, hforks, hlt, rfl, rfl, rfl, hprinted⟩, Nat.le_refl _⟩
  · next hnot =>
    obtain ⟨hat, hle⟩ := parentAt_waitLoop n hstrings hforks (by omega) (Nat.zero_le _) hprinted
    exact ⟨hat, by omega⟩

theorem fork_eq {argv : List Bytes} {s : State} {f : Int → State} (h : next garbage argv s = .fork f) :
    ∃ i, s.pc = .forking i ∧ f = afterFork argv.length s i := by
  unfold next at h
  split at h <;> cases h
  exact ⟨_, by assumption, rfl⟩

theorem wait_eq {argv : List Bytes} {s s' : State} (h : next garbage argv s = .wait s') :
    ∃ i, s.pc = .waiting i ∧ s' = waitLoop argv.length s (i + 1) := by
  unfold next at h
  split at h <;> cases h
  exact ⟨_, by assumption, rfl⟩

theorem call_eq {argv : List Bytes} {s : State} {f : Bool → State} (h : next garbage argv s = .call f) :
    ∃ k, s.pc = .shifting k ∧ ∀ b, f b = (shift garbage argv s k).getD { s with pc := .undefined } := by
  unfold next at h
  split at h <;> cases h
  exact ⟨_, by assumption, fun _ => rfl⟩

theorem isEnded_iff {argv : List Bytes} {s : State} : (next garbage argv s).isEnded = true ↔
    (∃ r, s.pc = .exited r) ∨ s.pc = .undefined := by
  cases hpc : s.pc <;> simp [next, hpc, Action.isEnded]

namespace Inv

variable {parent parent' c : Process State} {children children' : List (Process State)} {calls calls' : Nat}

theorem start (args : List Bytes) (forks : Nat → Bool) :
    Inv args forks ⟨none, forkLoop args.length ⟨.forking 0, argvOf args, []⟩ 0, false⟩ [] 0 :=
  ⟨(parentAt_forkLoop rfl (fun _ => (absurd · (Nat.not_lt_zero _))) (Nat.zero_le _) rfl).1,
    fun _ _ h => by cases h⟩

/-- The parent goes on, with the same children. -/
theorem moved {s : State} (h : Inv args forks parent children calls)
    (hat : ParentAt args forks children.length (children.countP Process.reaped) calls' s)
    (hlt : s.pc.weight args.length < parent.state.pc.weight args.length) :
    Inv args forks { parent with state := s } children calls' ∧
      weight garbage args { parent with state := s } children < weight garbage args parent children :=
  ⟨⟨hat, h.children⟩, Nat.add_lt_add_right hlt _⟩

theorem forked {i : Nat} (h : Inv args forks parent children calls) (hpc : parent.state.pc = .forking i)
    (hsucceeds : forks calls = true) :
    Inv args forks { parent with state := afterFork args.length parent.state i (children.length + 1 : Nat) }
        (children ++ [⟨some 0, afterFork args.length parent.state i 0, false⟩]) (calls + 1) ∧
      weight garbage args { parent with state := afterFork args.length parent.state i (children.length + 1 : Nat) }
        (children ++ [⟨some 0, afterFork args.length parent.state i 0, false⟩]) <
        weight garbage args parent children := by
  obtain ⟨hstrings, hforks, hat⟩ := h.parent
  rw [hpc] at hat
  obtain ⟨hi, hn, rfl, hreaped, hprinted⟩ := hat
  have hparent : afterFork args.length parent.state calls (children.length + 1 : Nat) =
      forkLoop args.length parent.state (calls + 1) := by
    have h0 : ¬ ((children.length + 1 : Nat) : Int) = -1 := by omega
    have h1 : ¬ ((children.length + 1 : Nat) : Int) = 0 := by omega
    simp only [afterFork, h0, h1, if_false]
  have hchild : afterFork args.length parent.state calls 0 = ⟨.shifting calls, argvOf args, []⟩ := by
    rw [← hstrings, ← hprinted]
    rfl
  have hall : ∀ k < calls + 1, forks k = true := fun k hk => by
    rcases Nat.lt_or_eq_of_le (Nat.le_of_lt_succ hk) with hlt | rfl
    · exact hforks k (hn ▸ hlt)
    · exact hsucceeds
  obtain ⟨hat', hle⟩ := parentAt_forkLoop hstrings hall hi hprinted
  rw [hparent, hchild]
  refine ⟨⟨?_, fun k c hc => ?_⟩, ?_⟩
  · rw [List.length_append, List.length_singleton, hn, List.countP_append, hreaped]
    exact hat'
  · rw [List.getElem?_append] at hc
    split at hc
    · exact h.children k c hc
    · next hk =>
      obtain ⟨hk', rfl⟩ := List.getElem?_eq_some_iff.mp hc
      rw [List.length_singleton] at hk'
      refine .inl ⟨?_, ?_⟩ <;> simp only [List.getElem_singleton]
      obtain rfl : k = calls := by omega
      rfl
  · have hrunning := running_append (next garbage (argvOf args)) children
      ⟨some 0, ⟨.shifting calls, argvOf args, []⟩, false⟩
    have hbefore : parent.state.pc.weight args.length = 2 * (args.length - calls) + args.length + 1 := by
      rw [hpc, Pc.weight]
    simp only [weight, hbefore]
    omega

theorem length_le (h : Inv args forks parent children calls) : children.length ≤ args.length := by
  obtain ⟨-, -, hat⟩ := h.parent
  cases hpc : parent.state.pc <;> rw [hpc] at hat
  case forking i => exact hat.2.1 ▸ Nat.le_of_lt hat.1
  case waiting i => exact Nat.le_of_eq hat.2.1
  case exited r => rcases hat with hat | hat <;> omega
  all_goals exact hat.elim

/-- A child moves that has become `c'`. -/
theorem children_set {j : Nat} (h : Inv args forks parent children calls) (c' : Process State)
    (hc' : IsChild args j c') : ∀ k d, (children.set j c')[k]? = some d → IsChild args k d := by
  intro k d hd
  by_cases hkj : k = j
  · subst hkj
    obtain ⟨hlt, rfl⟩ := List.getElem?_eq_some_iff.mp hd
    rwa [List.getElem_set_self]
  · rw [List.getElem?_set_ne (Ne.symm hkj)] at hd
    exact h.children k d hd

theorem childMoved (hargs : Args args) (h : Inv args forks parent children calls) {j : Nat} {f : Bool → State}
    {b : Bool} (hc : children[j]? = some c) (hnext : next garbage (argvOf args) c.state = .call f) :
    Inv args forks parent (children.set j { c with state := f b }) calls ∧
      weight garbage args parent (children.set j { c with state := f b }) < weight garbage args parent children := by
  obtain ⟨k, hpc, hf⟩ := call_eq hnext
  rcases h.children j c hc with ⟨hstate, hreaped⟩ | ⟨hexited, -⟩
  · have hj : j < args.length := Nat.lt_of_lt_of_le (List.getElem?_eq_some_iff.mp hc).1 h.length_le
    obtain rfl : j = k := by
      rw [hstate] at hpc
      cases hpc
      rfl
    obtain ⟨strings, hshift⟩ := shift_eq garbage hargs hj
    have hafter : f b = ⟨.exited EXIT_SUCCESS, strings, [.text (textOf args j)]⟩ := by
      rw [hf, hstate, hshift]
      rfl
    have hreap := countP_set Process.reaped { c with state := f b } hc
    have hrun := countP_set (fun d => !(next garbage (argvOf args) d.state).isEnded) { c with state := f b } hc
    have hended : (next garbage (argvOf args) c.state).isEnded = false := by rw [hnext]; rfl
    have hended' : (next garbage (argvOf args) (f b)).isEnded = true := by
      rw [isEnded_iff, hafter]
      exact .inl ⟨_, rfl⟩
    refine ⟨⟨?_, h.children_set _ (.inr ?_)⟩, ?_⟩
    · rw [List.length_set, Nat.add_right_cancel hreap]
      exact h.parent
    · rw [hafter]
      exact ⟨rfl, rfl⟩
    · simp only [hended, hended', Bool.not_true, Bool.not_false, if_true, Bool.false_eq_true, if_false] at hrun
      simp only [weight, running]
      omega
  · rw [hexited] at hpc
    cases hpc

theorem move (hargs : Args args) (h : Inv args forks parent children calls)
    (hm : Move (next garbage (argvOf args)) forks parent children calls parent' children' calls') :
    Inv args forks parent' children' calls' ∧
      weight garbage args parent' children' < weight garbage args parent children := by
  have hparent := h.parent
  obtain ⟨hstrings, hforks, hat⟩ := hparent
  cases hm with
  | fork hnext hsucceeds =>
    obtain ⟨i, hpc, rfl⟩ := fork_eq hnext
    rw [length_argvOf]
    exact h.forked hpc hsucceeds
  | forkFailed hnext hfails =>
    obtain ⟨i, hpc, rfl⟩ := fork_eq hnext
    rw [hpc] at hat
    obtain ⟨hi, rfl, rfl, hreaped, hprinted⟩ := hat
    refine h.moved ⟨hstrings, hforks, .inr ⟨rfl, hi, hfails, hreaped, hprinted⟩⟩ ?_
    rw [hpc]
    exact Nat.succ_pos _
  | @reap j c s hnext hc hended hreaped =>
    obtain ⟨i, hpc, rfl⟩ := wait_eq hnext
    rw [hpc] at hat
    obtain ⟨hi, hn, hcount, hprinted⟩ := hat
    have hreap := countP_set Process.reaped { c with reaped := true } hc
    have hrun := countP_set (fun d => !(next garbage (argvOf args) d.state).isEnded) { c with reaped := true } hc
    simp only [hreaped, Bool.false_eq_true, if_false, if_true, Nat.add_zero, hcount] at hreap
    have hchild : IsChild args j { c with reaped := true } := by
      rcases h.children j c hc with ⟨hstate, -⟩ | hexited
      · rw [isEnded_iff, hstate] at hended
        rcases hended with ⟨r, hr⟩ | hr <;> cases hr
      · exact .inr hexited
    obtain ⟨hat', hle⟩ := parentAt_waitLoop (i := i + 1) calls hstrings hforks hn hi hprinted
    rw [length_argvOf]
    refine ⟨⟨?_, h.children_set _ hchild⟩, ?_⟩
    · rw [List.length_set, hreap]
      exact hat'
    · have hbefore : parent.state.pc.weight args.length = args.length - i := by rw [hpc, Pc.weight]
      have hsame := Nat.add_right_cancel hrun
      simp only [weight, hbefore, running, hsame]
      omega
  | childless hnext hall =>
    obtain ⟨i, hpc, rfl⟩ := wait_eq hnext
    rw [hpc] at hat
    obtain ⟨hi, hn, hreaped, -⟩ := hat
    have hcount := List.countP_eq_length.mpr hall
    omega
  | call hnext =>
    obtain ⟨k, hpc, -⟩ := call_eq hnext
    rw [hpc] at hat
    exact hat.elim
  | child hc hnext => exact h.childMoved hargs hc hnext

end Inv

/-! ### The output -/

/-- The children that are made: all, or those before the first `fork` that fails. -/
def made (forks : Nat → Bool) (argc : Nat) : Nat := ((List.range argc).takeWhile forks).length

theorem made_eq {argc n : Nat} (hforks : ∀ k < n, forks k = true) (hn : n ≤ argc)
    (hfails : n < argc → forks n = false) : made forks argc = n := by
  obtain ⟨m, rfl⟩ := Nat.exists_eq_add_of_le hn
  rw [made, List.range_add, List.takeWhile_append_of_pos fun k hk => hforks k (List.mem_range.mp hk),
    List.length_append, List.length_range]
  cases m with
  | zero => rfl
  | succ m =>
    have hstop : ¬ forks (n + 0) = true := by simp [hfails (by omega)]
    rw [List.range_succ_eq_map, List.map_cons, List.takeWhile_cons_of_neg hstop]
    rfl

theorem said_done {n reaped calls : Nat} {s : State} (h : ParentAt args forks n reaped calls s)
    (hdone : .done ∈ s.printed) : n = args.length ∧ reaped = n ∧ s.printed = [.done] := by
  obtain ⟨-, -, hat⟩ := h
  cases hpc : s.pc <;> rw [hpc] at hat
  case exited r =>
    rcases hat with ⟨-, hn, hreaped, hprinted⟩ | ⟨-, -, -, -, hprinted⟩
    · exact ⟨hn, hreaped, hprinted⟩
    · rw [hprinted] at hdone; cases hdone
  case forking i => rw [hat.2.2.2.2] at hdone; cases hdone
  case waiting i => rw [hat.2.2.2] at hdone; cases hdone
  all_goals exact hat.elim

theorem parent_ended {n reaped calls : Nat} {s : State} (h : ParentAt args forks n reaped calls s)
    (hended : (next garbage (argvOf args) s).isEnded = true) :
    made forks args.length = n ∧
      s.pc = .exited (if made forks args.length = args.length then EXIT_SUCCESS else EXIT_FAILURE) ∧
      s.printed = if made forks args.length = args.length then [.done] else [] := by
  obtain ⟨-, hforks, hat⟩ := h
  rcases isEnded_iff.mp hended with ⟨r, hpc⟩ | hpc <;> rw [hpc] at hat
  · rcases hat with ⟨rfl, hn, -, hprinted⟩ | ⟨rfl, hn, hfails, -, hprinted⟩
    · have hmade : made forks args.length = n := made_eq hforks (Nat.le_of_eq hn) (by omega)
      rw [hmade, if_pos hn, if_pos hn]
      exact ⟨rfl, hpc, hprinted⟩
    · have hmade : made forks args.length = n := made_eq hforks (Nat.le_of_lt hn) fun _ => hfails
      rw [hmade, if_neg (Nat.ne_of_lt hn), if_neg (Nat.ne_of_lt hn)]
      exact ⟨rfl, hpc, hprinted⟩
  · exact hat.elim

/-- What a run has come to. -/
structure Prints (garbage : Nat → UInt8) (args : List Bytes) (forks : Nat → Bool) (events : List Event)
    (σ : Table State) : Prop where
  ends : events.length ≤ 3 * args.length + 1
  /-- A child prints nothing but the text for its argument. -/
  texts : ∀ k c, σ.processes[k + 1]? = some c → c.state.printed <+: [.text (textOf args k)]
  /-- The parent says that it is done when every argument has been printed. -/
  done : ∀ parent, σ.processes[0]? = some parent → .done ∈ parent.state.printed →
    σ.processes.map (fun c => c.state.printed) =
      [.done] :: (List.range args.length).map fun k => [.text (textOf args k)]
  completes : Final (Table.step (next garbage (argvOf args)) forks) σ →
    (∃ parent, σ.processes[0]? = some parent ∧ parent.state.pc =
      .exited (if made forks args.length = args.length then EXIT_SUCCESS else EXIT_FAILURE)) ∧
    σ.processes.map (fun c => c.state.printed) =
      (if made forks args.length = args.length then [.done] else []) ::
        (List.range (made forks args.length)).map fun k => [.text (textOf args k)]

namespace Inv

variable {parent : Process State} {children : List (Process State)} {calls : Nat}

/-- The children that are behind `string_shift_right` have printed their texts. -/
theorem map_printed (h : Inv args forks parent children calls)
    (hall : ∀ c ∈ children, ∀ k, c.state.pc ≠ .shifting k) :
    children.map (fun c => c.state.printed) =
      (List.range children.length).map fun k => [.text (textOf args k)] := by
  refine List.ext_getElem (by simp) fun k hk _ => ?_
  rw [List.length_map] at hk
  simp only [List.getElem_map, List.getElem_range]
  rcases h.children k children[k] (List.getElem?_eq_getElem hk) with ⟨hstate, -⟩ | ⟨-, hprinted⟩
  · exact absurd (congrArg State.pc hstate) (hall _ (List.getElem_mem hk) k)
  · exact hprinted

theorem not_shifting_of_reaped (h : Inv args forks parent children calls)
    (hcount : children.countP Process.reaped = children.length) :
    ∀ c ∈ children, ∀ k, c.state.pc ≠ .shifting k := by
  intro c hc k hk
  have hreaped := List.countP_eq_length.mp hcount c hc
  obtain ⟨j, hj⟩ := List.getElem?_of_mem hc
  rcases h.children j c hj with ⟨-, hnot⟩ | ⟨hexited, -⟩
  · rw [hreaped] at hnot; cases hnot
  · rw [hexited] at hk; cases hk

end Inv

theorem printsEach (garbage : Nat → UInt8) (args : List Bytes) (forks : Nat → Bool) (s : State)
    (events : List Event) (σ : Table State) (hargs : Args args) (hs : start? (argvOf args) = some s)
    (hr : run (Table.step (next garbage (argvOf args)) forks) (Table.start s) events = some σ) :
    Prints garbage args forks events σ := by
  obtain rfl := Option.some.inj ((start_eq hargs).symm.trans hs)
  obtain ⟨parent, children, hfamily, hinv, hlength⟩ := family_of_run (Inv args forks) (weight garbage args)
    leaves (fun parent children calls f hinv hnext => by
      obtain ⟨i, -, rfl⟩ := fork_eq hnext
      trivial) (fun _ _ _ _ _ _ hinv _ hm => hinv.move hargs hm) (Inv.start args forks) hr
  have hprocesses := hfamily.processes
  obtain ⟨-, hforks, hat⟩ := hinv.parent
  refine ⟨?_, fun k c hc => ?_, fun p hp hdone => ?_, fun hfinal => ?_⟩
  · have hnone : ∀ k < 0, forks k = true := fun k hk => absurd hk (Nat.not_lt_zero k)
    have hfirst := (parentAt_forkLoop (s := ⟨.forking 0, argvOf args, []⟩) rfl hnone (Nat.zero_le _) rfl).2
    simp only [weight, running, List.countP_nil] at hlength
    omega
  · rw [hprocesses] at hc
    rcases hinv.children k c hc with ⟨hstate, -⟩ | ⟨-, hprinted⟩
    · rw [hstate]
      exact List.nil_prefix
    · rw [hprinted]
  · rw [hprocesses] at hp
    obtain rfl : parent = p := Option.some.inj hp
    obtain ⟨hn, hcount, hprinted⟩ := said_done hinv.parent hdone
    rw [hprocesses, List.map_cons, hprinted, ← hn, hinv.map_printed (hinv.not_shifting_of_reaped hcount)]
  · obtain ⟨hended, hchildren⟩ := hfamily.ended_of_final leaves hfinal
    have hall : ∀ c ∈ children, ∀ k, c.state.pc ≠ .shifting k := fun c hc k hk => by
      rcases isEnded_iff.mp (hchildren c hc) with ⟨r, hr⟩ | hr <;> rw [hr] at hk <;> cases hk
    rw [hprocesses]
    obtain ⟨hmade, hpc, hprinted⟩ := parent_ended hinv.parent hended
    refine ⟨⟨parent, rfl, hpc⟩, ?_⟩
    rw [List.map_cons, hprinted, hmade, hinv.map_printed hall]

/-- `abc` and `Z`; the second child is the first to be done and to be waited for. -/
def twoArgs : List Bytes := [[97, 98, 99], [90]]

def secondFirst : List Event :=
  [.fork 0, .fork 0, .call 2 true, .wait 0 (some 2), .call 1 true, .wait 0 (some 1)]

theorem printsEach_twoArgs : ∃ s σ, start? (argvOf twoArgs) = some s ∧
    run (Table.step (next (fun _ => 0) (argvOf twoArgs)) fun _ => true) (Table.start s) secondFirst = some σ ∧
      σ.processes.map (fun c => c.state.printed) =
        [[.done], [.text ⟨0, [97, 98, 99], [65, 66, 67], [98, 99, 97]⟩], [.text ⟨1, [90], [90], [90]⟩]] ∧
      Prints (fun _ => 0) twoArgs (fun _ => true) secondFirst σ := by
  have hargs : Args twoArgs := by decide +kernel
  have heval : (run (Table.step (next (fun _ => 0) (argvOf twoArgs)) fun _ => true)
      (Table.start (forkLoop 2 ⟨.forking 0, argvOf twoArgs, []⟩ 0)) secondFirst).map
      (fun σ => σ.processes.map fun c => c.state.printed) =
        some [[.done], [.text ⟨0, [97, 98, 99], [65, 66, 67], [98, 99, 97]⟩], [.text ⟨1, [90], [90], [90]⟩]] := by
    decide +kernel
  obtain ⟨σ, hr, hprinted⟩ := Option.map_eq_some_iff.mp heval
  exact ⟨_, σ, start_eq hargs, hr, hprinted,
    printsEach (fun _ => 0) twoArgs (fun _ => true) _ secondFirst σ hargs (start_eq hargs) hr⟩

end OsExercises.Shift
