import OsExercises.Lib.Transition

/-!
# Processes that fork

`next` says what a process does next, by its state. `fork` goes on in two processes, from the same point
with two return values: the process id of the child in the parent, 0 in the child. The index of a
process in the table is its id. `forks k` says whether the call of `fork` with the number `k` succeeds;
which process moves is part of the event.
-/

namespace OsExercises.Processes

variable {S : Type*}

inductive Action (S : Type*) where
  /-- The state behind the call, for each return value. -/
  | fork (k : Int → S)
  /-- `wait(NULL)` -/
  | wait (s : S)
  /-- A call that succeeds or not. -/
  | call (k : Bool → S)
  | ended

def Action.isEnded : Action S → Bool
  | .ended => true
  | _ => false

structure Process (S : Type*) where
  parent : Option Nat
  state : S
  /-- The parent has waited for it. -/
  reaped : Bool

structure Table (S : Type*) where
  processes : List (Process S)
  /-- The calls of `fork` so far. -/
  calls : Nat

inductive Event where
  | fork (i : Nat)
  /-- `wait` returns for the child, or fails since there is none. -/
  | wait (i : Nat) (child : Option Nat)
  | call (i : Nat) (succeeds : Bool)

variable (next : S → Action S) (forks : Nat → Bool)

namespace Table

/-- A single process. -/
def start (s : S) : Table S := ⟨[⟨none, s, false⟩], 0⟩

def fork (σ : Table S) (i : Nat) : Option (Table S) := do
  let p ← σ.processes[i]?
  match next p.state with
  | .fork k =>
    if forks σ.calls then
      some ⟨σ.processes.set i { p with state := k σ.processes.length } ++ [⟨some i, k 0, false⟩], σ.calls + 1⟩
    else some ⟨σ.processes.set i { p with state := k (-1) }, σ.calls + 1⟩
  | _ => none

def wait (σ : Table S) (i : Nat) (child : Option Nat) : Option (Table S) := do
  let p ← σ.processes[i]?
  match next p.state, child with
  | .wait s, some j => do
    let c ← σ.processes[j]?
    if c.parent = some i ∧ (next c.state).isEnded = true ∧ c.reaped = false then
      some { σ with processes := (σ.processes.set i { p with state := s }).set j { c with reaped := true } }
    else none
  | .wait s, none =>
    if ∀ c ∈ σ.processes, c.parent = some i → c.reaped = true then
      some { σ with processes := σ.processes.set i { p with state := s } }
    else none
  | _, _ => none

def call (σ : Table S) (i : Nat) (succeeds : Bool) : Option (Table S) := do
  let p ← σ.processes[i]?
  match next p.state with
  | .call k => some { σ with processes := σ.processes.set i { p with state := k succeeds } }
  | _ => none

def step (σ : Table S) : Event → Option (Table S)
  | .fork i => σ.fork next forks i
  | .wait i child => σ.wait next i child
  | .call i succeeds => σ.call next i succeeds

/-! ### What a step does -/

variable (σ : Table S)

inductive Step : Event → Table S → Prop
  | forked {i : Nat} {p : Process S} {k : Int → S} (hp : σ.processes[i]? = some p)
    (hnext : next p.state = .fork k) (hsucceeds : forks σ.calls = true) :
    Step (.fork i) ⟨σ.processes.set i { p with state := k σ.processes.length } ++ [⟨some i, k 0, false⟩],
      σ.calls + 1⟩
  | forkFailed {i : Nat} {p : Process S} {k : Int → S} (hp : σ.processes[i]? = some p)
    (hnext : next p.state = .fork k) (hfails : forks σ.calls = false) :
    Step (.fork i) ⟨σ.processes.set i { p with state := k (-1) }, σ.calls + 1⟩
  | reaped {i j : Nat} {p c : Process S} {s : S} (hp : σ.processes[i]? = some p)
    (hnext : next p.state = .wait s) (hc : σ.processes[j]? = some c) (hparent : c.parent = some i)
    (hended : (next c.state).isEnded = true) (hreaped : c.reaped = false) :
    Step (.wait i (some j))
      { σ with processes := (σ.processes.set i { p with state := s }).set j { c with reaped := true } }
  | childless {i : Nat} {p : Process S} {s : S} (hp : σ.processes[i]? = some p)
    (hnext : next p.state = .wait s) (hnone : ∀ c ∈ σ.processes, c.parent = some i → c.reaped = true) :
    Step (.wait i none) { σ with processes := σ.processes.set i { p with state := s } }
  | called {i : Nat} {succeeds : Bool} {p : Process S} {k : Bool → S} (hp : σ.processes[i]? = some p)
    (hnext : next p.state = .call k) :
    Step (.call i succeeds) { σ with processes := σ.processes.set i { p with state := k succeeds } }

variable {next forks σ} {σ' : Table S} {e : Event}

theorem step_iff : σ.step next forks e = some σ' ↔ Step next forks σ e σ' := by
  constructor
  · intro h
    cases e with
    | fork i =>
      obtain ⟨p, hp, h⟩ := Option.bind_eq_some_iff.mp h
      cases hnext : next p.state <;> rw [hnext] at h <;> try cases h
      next k =>
      dsimp only at h
      split_ifs at h with hforks
      · cases h
        exact .forked hp hnext hforks
      · cases h
        exact .forkFailed hp hnext (eq_false_of_ne_true hforks)
    | wait i child =>
      obtain ⟨p, hp, h⟩ := Option.bind_eq_some_iff.mp h
      cases hnext : next p.state <;> rw [hnext] at h <;> try cases h
      next s =>
      cases child with
      | none =>
        dsimp only at h
        split_ifs at h with hnone
        cases h
        exact .childless hp hnext hnone
      | some j =>
        obtain ⟨c, hc, h⟩ := Option.bind_eq_some_iff.mp h
        split_ifs at h with hcond
        cases h
        exact .reaped hp hnext hc hcond.1 hcond.2.1 hcond.2.2
    | call i succeeds =>
      obtain ⟨p, hp, h⟩ := Option.bind_eq_some_iff.mp h
      cases hnext : next p.state <;> rw [hnext] at h <;> try cases h
      exact .called hp hnext
  · intro h
    cases h with
    | forked hp hnext hsucceeds => simp [step, fork, hp, hnext, hsucceeds]
    | forkFailed hp hnext hfails => simp [step, fork, hp, hnext, hfails]
    | reaped hp hnext hc hparent hended hreaped =>
      simp [step, wait, hp, hnext, hc, hparent, hended, hreaped]
    | childless hp hnext hnone =>
      simp only [step, wait, hp, hnext, Option.bind_eq_bind, Option.bind_some]
      exact if_pos hnone
    | called hp hnext => simp [step, call, hp, hnext]

theorem not_final (h : Step next forks σ e σ') : ¬ Transition.Final (Table.step next forks) σ := by
  intro hfinal
  cases (hfinal e).symm.trans (step_iff.mpr h)

end Table

end OsExercises.Processes
