import OsExercises.Barrier.Machine
import OsExercises.Dice.Eliminate
import OsExercises.Lib.Transition

/-!
# The dice game

`run_player` of `src/exercise09/task_3/task_3.c` and `src/exercise09/task_2/task_2.c`, executed by `n`
threads under any scheduler. The two programs differ in the barrier: `my_pthread_barrier_t`, or
`pthread_barrier_t`, which is the barrier of `Lib/CyclicBarrier.lean`. A thread's step reads or writes
the table only at the places that `Pc.accesses` names. `rounds`, `rolls`, `eliminator` and `announced`
are not part of the program.
-/

namespace OsExercises.Dice
open CyclicBarrier

/-- Where a thread is in `run_player`. `res` tells whether it was the serial thread of the second
barrier, `none` before it has been assigned. -/
inductive Pc where
  /-- Before the first barrier of the round. -/
  | enteringFirst (res : Option Bool)
  | inFirst (res : Option Bool)
  /-- Before `*active_players` is compared with `1`. -/
  | testing (res : Option Bool)
  /-- Before the thread rolls, if it is playing. -/
  | rolling
  /-- Before the second barrier of the round. -/
  | enteringSecond
  | inSecond
  /-- Before `res` is compared, in the loop. -/
  | deciding (res : Bool)
  | eliminating (p : Elimination)
  /-- After the loop, before `res` is compared. -/
  | leaving (res : Option Bool)
  /-- In the loop of `get_winner_id`. -/
  | announcing (i : Nat)
  | finished
deriving DecidableEq

namespace Pc

/-- The thread has left the loop. -/
def left : Pc → Bool
  | .leaving _ | .announcing _ | .finished => true
  | _ => false

/-- The next step of the thread reads or writes `active_players` or a player's `playing` or `result`. -/
def accesses : Pc → Bool
  | .testing _ | .rolling | .eliminating _ | .announcing _ => true
  | _ => false

end Pc

/-- Task 2 uses `pthread_barrier_t`, task 3 `my_pthread_barrier_t`. -/
inductive Variant where
  | posix
  | own
deriving DecidableEq

def Variant.machine (n : Nat) : Variant → Machine (Fin n)
  | .posix => spec (Fin n)
  | .own => Barrier.machine (Fin n) n

structure System {n : Nat} (M : Machine (Fin n)) where
  table : Table n
  pc : Fin n → Pc
  barrier : M.State
  /-- How often a thread has returned from the second barrier. -/
  rounds : Fin n → Nat
  /-- How often a thread has rolled since the last elimination. -/
  rolls : Fin n → Nat
  /-- The thread that executed the last elimination. -/
  eliminator : Option (Fin n)
  /-- The threads that announced a winner, with the winner. -/
  announced : List (Fin n × Fin n)

inductive Event {n : Nat} (M : Machine (Fin n)) where
  /-- A thread calls one of the two barriers. -/
  | enter (t : Fin n)
  /-- A step within the barrier. -/
  | barrier (e : M.Event)
  /-- A thread returns from one of the two barriers. -/
  | exit (t : Fin n)
  | test (t : Fin n)
  | roll (t : Fin n) (r₁ r₂ : Nat)
  | decide (t : Fin n)
  | eliminate (t : Fin n)
  | leave (t : Fin n)
  | announce (t : Fin n)

def Event.spurious {n : Nat} {M : Machine (Fin n)} : Event M → Bool
  | .barrier e => M.spurious e
  | _ => false

namespace System

variable {n : Nat} {M : Machine (Fin n)}

def start (M : Machine (Fin n)) : System M where
  table := { players := fun _ => { result := 0, playing := true }, activePlayers := n }
  pc := fun _ => .enteringFirst none
  barrier := M.start
  rounds := fun _ => 0
  rolls := fun _ => 0
  eliminator := none
  announced := []

def go (σ : System M) (t : Fin n) (p : Pc) : Fin n → Pc := Function.update σ.pc t p

def enter (σ : System M) (t : Fin n) : Option (System M) :=
  match σ.pc t with
  | .enteringFirst res =>
    (M.call σ.barrier t).map fun b => { σ with pc := σ.go t (.inFirst res), barrier := b }
  | .enteringSecond =>
    (M.call σ.barrier t).map fun b => { σ with pc := σ.go t .inSecond, barrier := b }
  | _ => none

def within (σ : System M) (e : M.Event) : Option (System M) :=
  (M.internal σ.barrier e).map fun b => { σ with barrier := b }

/-- The value that the first barrier returns is discarded. -/
def exit (σ : System M) (t : Fin n) : Option (System M) :=
  match σ.pc t with
  | .inFirst res =>
    (M.ret σ.barrier t).map fun r => { σ with pc := σ.go t (.testing res), barrier := r.2 }
  | .inSecond =>
    (M.ret σ.barrier t).map fun r => { σ with
      pc := σ.go t (.deciding r.1)
      barrier := r.2
      rounds := Function.update σ.rounds t (σ.rounds t + 1) }
  | _ => none

def test (σ : System M) (t : Fin n) : Option (System M) :=
  match σ.pc t with
  | .testing res =>
    if σ.table.activePlayers = 1 then some { σ with pc := σ.go t (.leaving res) }
    else some { σ with pc := σ.go t .rolling }
  | _ => none

def roll (σ : System M) (t : Fin n) (r₁ r₂ : Nat) : Option (System M) :=
  match σ.pc t with
  | .rolling =>
    if (σ.table.players t).playing = true then some { σ with
      table := σ.table.setPlayer t { σ.table.players t with result := Dice.roll r₁ r₂ }
      pc := σ.go t .enteringSecond
      rolls := Function.update σ.rolls t (σ.rolls t + 1) }
    else some { σ with pc := σ.go t .enteringSecond }
  | _ => none

def decide (σ : System M) (t : Fin n) : Option (System M) :=
  match σ.pc t with
  | .deciding true => some { σ with
      pc := σ.go t (.eliminating (.minimum 0 INT_MAX))
      rolls := fun _ => 0
      eliminator := some t }
  | .deciding false => some { σ with pc := σ.go t (.enteringFirst (some false)) }
  | _ => none

def eliminate (σ : System M) (t : Fin n) : Option (System M) :=
  match σ.pc t with
  | .eliminating p =>
    match σ.table.eliminateStep p with
    | (table, some p') => some { σ with table := table, pc := σ.go t (.eliminating p') }
    | (table, none) => some { σ with table := table, pc := σ.go t (.enteringFirst (some true)) }
  | _ => none

/-- There is no step if `res` has not been assigned. -/
def leave (σ : System M) (t : Fin n) : Option (System M) :=
  match σ.pc t with
  | .leaving (some true) => some { σ with pc := σ.go t (.announcing 0) }
  | .leaving (some false) => some { σ with pc := σ.go t .finished }
  | _ => none

/-- The loop of `get_winner_id`, and what is done with its result; nothing is announced if it is `-1`. -/
def announce (σ : System M) (t : Fin n) : Option (System M) :=
  match σ.pc t with
  | .announcing i =>
    if h : i < n then
      if (σ.table.players ⟨i, h⟩).playing = true then
        some { σ with pc := σ.go t .finished, announced := σ.announced ++ [(t, ⟨i, h⟩)] }
      else some { σ with pc := σ.go t (.announcing (i + 1)) }
    else some { σ with pc := σ.go t .finished }
  | _ => none

def step (σ : System M) : Event M → Option (System M)
  | .enter t => σ.enter t
  | .barrier e => σ.within e
  | .exit t => σ.exit t
  | .test t => σ.test t
  | .roll t r₁ r₂ => σ.roll t r₁ r₂
  | .decide t => σ.decide t
  | .eliminate t => σ.eliminate t
  | .leave t => σ.leave t
  | .announce t => σ.announce t

/-! ### What each step does -/

/-- The outcomes of the steps, one for each way through the source. -/
inductive Step (σ : System M) : Event M → System M → Prop
  | enterFirst {t : Fin n} {res : Option Bool} {b : M.State} (hpc : σ.pc t = .enteringFirst res)
    (hb : M.call σ.barrier t = some b) :
    Step σ (.enter t) { σ with pc := σ.go t (.inFirst res), barrier := b }
  | enterSecond {t : Fin n} {b : M.State} (hpc : σ.pc t = .enteringSecond)
    (hb : M.call σ.barrier t = some b) :
    Step σ (.enter t) { σ with pc := σ.go t .inSecond, barrier := b }
  | within {e : M.Event} {b : M.State} (hb : M.internal σ.barrier e = some b) :
    Step σ (.barrier e) { σ with barrier := b }
  | exitFirst {t : Fin n} {res : Option Bool} {serial : Bool} {b : M.State}
    (hpc : σ.pc t = .inFirst res) (hb : M.ret σ.barrier t = some (serial, b)) :
    Step σ (.exit t) { σ with pc := σ.go t (.testing res), barrier := b }
  | exitSecond {t : Fin n} {serial : Bool} {b : M.State} (hpc : σ.pc t = .inSecond)
    (hb : M.ret σ.barrier t = some (serial, b)) :
    Step σ (.exit t) { σ with
      pc := σ.go t (.deciding serial)
      barrier := b
      rounds := Function.update σ.rounds t (σ.rounds t + 1) }
  | testLast {t : Fin n} {res : Option Bool} (hpc : σ.pc t = .testing res)
    (hactive : σ.table.activePlayers = 1) :
    Step σ (.test t) { σ with pc := σ.go t (.leaving res) }
  | testMore {t : Fin n} {res : Option Bool} (hpc : σ.pc t = .testing res)
    (hactive : σ.table.activePlayers ≠ 1) : Step σ (.test t) { σ with pc := σ.go t .rolling }
  | roll {t : Fin n} {r₁ r₂ : Nat} (hpc : σ.pc t = .rolling)
    (hplaying : (σ.table.players t).playing = true) :
    Step σ (.roll t r₁ r₂) { σ with
      table := σ.table.setPlayer t { σ.table.players t with result := Dice.roll r₁ r₂ }
      pc := σ.go t .enteringSecond
      rolls := Function.update σ.rolls t (σ.rolls t + 1) }
  | skip {t : Fin n} {r₁ r₂ : Nat} (hpc : σ.pc t = .rolling)
    (hplaying : (σ.table.players t).playing = false) :
    Step σ (.roll t r₁ r₂) { σ with pc := σ.go t .enteringSecond }
  | decideSerial {t : Fin n} (hpc : σ.pc t = .deciding true) :
    Step σ (.decide t) { σ with
      pc := σ.go t (.eliminating (.minimum 0 INT_MAX))
      rolls := fun _ => 0
      eliminator := some t }
  | decide {t : Fin n} (hpc : σ.pc t = .deciding false) :
    Step σ (.decide t) { σ with pc := σ.go t (.enteringFirst (some false)) }
  | eliminate {t : Fin n} {p p' : Elimination} {table : Table n} (hpc : σ.pc t = .eliminating p)
    (hp : σ.table.eliminateStep p = (table, some p')) :
    Step σ (.eliminate t) { σ with table := table, pc := σ.go t (.eliminating p') }
  | eliminated {t : Fin n} {p : Elimination} {table : Table n} (hpc : σ.pc t = .eliminating p)
    (hp : σ.table.eliminateStep p = (table, none)) :
    Step σ (.eliminate t) { σ with table := table, pc := σ.go t (.enteringFirst (some true)) }
  | leaveSerial {t : Fin n} (hpc : σ.pc t = .leaving (some true)) :
    Step σ (.leave t) { σ with pc := σ.go t (.announcing 0) }
  | leave {t : Fin n} (hpc : σ.pc t = .leaving (some false)) :
    Step σ (.leave t) { σ with pc := σ.go t .finished }
  | announce {t : Fin n} {i : Nat} (hpc : σ.pc t = .announcing i) (hi : i < n)
    (hplaying : (σ.table.players ⟨i, hi⟩).playing = true) :
    Step σ (.announce t) { σ with
      pc := σ.go t .finished
      announced := σ.announced ++ [(t, ⟨i, hi⟩)] }
  | scan {t : Fin n} {i : Nat} (hpc : σ.pc t = .announcing i) (hi : i < n)
    (hplaying : (σ.table.players ⟨i, hi⟩).playing = false) :
    Step σ (.announce t) { σ with pc := σ.go t (.announcing (i + 1)) }
  | noWinner {t : Fin n} {i : Nat} (hpc : σ.pc t = .announcing i) (hi : ¬ i < n) :
    Step σ (.announce t) { σ with pc := σ.go t .finished }

variable {σ σ' : System M} {e : Event M}

theorem step_cases (h : σ.step e = some σ') : Step σ e σ' := by
  cases e with
  | enter t =>
    simp only [step, enter] at h
    split at h
    · next hpc =>
      obtain ⟨b, hb, rfl⟩ := Option.map_eq_some_iff.mp h
      exact .enterFirst hpc hb
    · next hpc =>
      obtain ⟨b, hb, rfl⟩ := Option.map_eq_some_iff.mp h
      exact .enterSecond hpc hb
    · cases h
  | barrier e =>
    obtain ⟨b, hb, rfl⟩ := Option.map_eq_some_iff.mp h
    exact .within hb
  | exit t =>
    simp only [step, exit] at h
    split at h
    · next hpc =>
      obtain ⟨⟨serial, b⟩, hb, rfl⟩ := Option.map_eq_some_iff.mp h
      exact .exitFirst hpc hb
    · next hpc =>
      obtain ⟨⟨serial, b⟩, hb, rfl⟩ := Option.map_eq_some_iff.mp h
      exact .exitSecond hpc hb
    · cases h
  | test t =>
    simp only [step, test] at h
    split at h
    · next hpc =>
      split at h <;> cases h
      · next hactive => exact .testLast hpc hactive
      · next hactive => exact .testMore hpc hactive
    · cases h
  | roll t r₁ r₂ =>
    simp only [step, roll] at h
    split at h
    · next hpc =>
      split at h <;> cases h
      · next hplaying => exact .roll hpc hplaying
      · next hplaying => exact .skip hpc (by simpa using hplaying)
    · cases h
  | decide t =>
    simp only [step, decide] at h
    split at h <;> cases h
    · next hpc => exact .decideSerial hpc
    · next hpc => exact .decide hpc
  | eliminate t =>
    simp only [step, eliminate] at h
    split at h
    · next hpc =>
      split at h <;> cases h
      · next hp => exact .eliminate hpc hp
      · next hp => exact .eliminated hpc hp
    · cases h
  | leave t =>
    simp only [step, leave] at h
    split at h <;> cases h
    · next hpc => exact .leaveSerial hpc
    · next hpc => exact .leave hpc
  | announce t =>
    simp only [step, announce] at h
    split at h
    · next hpc =>
      split at h
      · next hi =>
        split at h <;> cases h
        · next hplaying => exact .announce hpc hi hplaying
        · next hplaying => exact .scan hpc hi (by simpa using hplaying)
      · next hi =>
        cases h
        exact .noWinner hpc hi
    · cases h

end System
end OsExercises.Dice
