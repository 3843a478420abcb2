import OsExercises.Lib.CInt
import OsExercises.Lib.Loop
import OsExercises.Lib.Transition

/-!
# Counted signals

`src/exercise03/task_1/task_1.c`: the handler counts the signals and `print_recieved_signals` reports
them later. `Process` is the memory of the program, `printRecievedSignals` a call that nothing
interrupts; in a `System` signals arrive between any two accesses of the main program.
-/

namespace OsExercises.Signals

inductive Signal where
  | SIGINT
  | SIGSTOP
  | SIGCONT
  | SIGKILL
  | SIGUSR1
  | SIGUSR2
deriving DecidableEq

inductive Disposition where
  | default
  /-- `default_action`: the handler is called. -/
  | handler
  /-- `no_action`: the signal is dropped. -/
  | ignore
deriving DecidableEq

structure Process where
  /-- `int_res`, `stop_res`, ... -/
  res : Signal → Int
  disposition : Signal → Disposition
  /-- The report lines printed. -/
  printed : Signal → Nat
  /-- The calls of the handler. -/
  activations : Signal → Nat

namespace Process

def sigaction (p : Process) (sig : Signal) (act : Disposition) : Process :=
  { p with disposition := Function.update p.disposition sig act }

/-- After the calls of `sigaction` in `main`. -/
def start : Process :=
  let p : Process := ⟨fun _ => 0, fun _ => .default, fun _ => 0, fun _ => 0⟩
  (((p.sigaction .SIGINT .handler).sigaction .SIGCONT .handler).sigaction .SIGUSR1 .handler).sigaction
    .SIGUSR2 .handler

def store (p : Process) (sig : Signal) (res : Int) : Process :=
  { p with res := Function.update p.res sig res }

def activate (p : Process) (sig : Signal) : Process :=
  { p with activations := Function.update p.activations sig (p.activations sig + 1) }

def handleSignal (p : Process) (sig : Signal) : Option Process :=
  (intAdd? (p.res sig) 1).map fun res => (p.activate sig).store sig res

/-- By default `SIGSTOP` stops the program for a while and the others end it. -/
def deliver (p : Process) (sig : Signal) : Option Process :=
  match p.disposition sig with
  | .handler => p.handleSignal sig
  | .ignore => some p
  | .default => if sig = .SIGSTOP then some p else none

/-! ### `print_recieved_signals` -/

/-- The loops, in this order. -/
def order : List Signal := [.SIGINT, .SIGSTOP, .SIGCONT, .SIGKILL, .SIGUSR1, .SIGUSR2]

/-- The calls of `sigaction` in a loop. -/
def reactions : Signal → List (Signal × Disposition)
  | .SIGINT => [(.SIGUSR1, .handler), (.SIGUSR2, .handler)]
  | .SIGUSR1 => [(.SIGUSR2, .ignore)]
  | .SIGUSR2 => [(.SIGUSR1, .ignore)]
  | _ => []

def react (p : Process) (sig : Signal) : Process :=
  (reactions sig).foldl (fun p r => p.sigaction r.1 r.2) p

/-- `DBG_SIG`. -/
def report (p : Process) (sig : Signal) : Process :=
  { p with printed := Function.update p.printed sig (p.printed sig + 1) }

def body (sig : Signal) (p : Process) : Option Process :=
  (intAdd? (p.res sig) (-1)).map fun res => ((p.react sig).report sig).store sig res

def pending (sig : Signal) (p : Process) : Bool := p.res sig ≠ 0

def loop (sig : Signal) (p : Process) : Option Process :=
  whileLoop (pending sig) (body sig) ((p.res sig).toNat + 1) p

def printRecievedSignals (p : Process) : Option Process := order.foldlM (fun p sig => loop sig p) p

end Process

/-! ### The main program and the handler -/

/-- Where the main program is; `rest` are the loops behind that of `sig`. -/
inductive Pc where
  /-- Outside `print_recieved_signals`. -/
  | working
  | testing (sig : Signal) (rest : List Signal)
  /-- Before the calls `todo` of `sigaction` and the report. -/
  | reporting (todo : List (Signal × Disposition)) (sig : Signal) (rest : List Signal)
  | loading (sig : Signal) (rest : List Signal)
  /-- The counter was `res` when it was read. -/
  | storing (sig : Signal) (rest : List Signal) (res : Int)
deriving DecidableEq

def Pc.enter : List Signal → Pc
  | [] => .working
  | sig :: rest => .testing sig rest

structure System where
  process : Process
  pc : Pc

inductive Event where
  | deliver (sig : Signal)
  /-- A step of the main program. -/
  | main
deriving DecidableEq

namespace System

def start : System := ⟨.start, .working⟩

def mainStep (σ : System) : Option System :=
  match σ.pc with
  | .working => some { σ with pc := .enter Process.order }
  | .testing sig rest =>
    some { σ with pc := if σ.process.res sig ≠ 0 then .reporting (Process.reactions sig) sig rest
                        else .enter rest }
  | .reporting (r :: todo) sig rest => some ⟨σ.process.sigaction r.1 r.2, .reporting todo sig rest⟩
  | .reporting [] sig rest => some ⟨σ.process.report sig, .loading sig rest⟩
  | .loading sig rest => some { σ with pc := .storing sig rest (σ.process.res sig) }
  | .storing sig rest res =>
    (intAdd? res (-1)).map fun res => ⟨σ.process.store sig res, .testing sig rest⟩

def step (σ : System) : Event → Option System
  | .deliver sig => (σ.process.deliver sig).map fun p => { σ with process := p }
  | .main => σ.mainStep

/-- The outcomes of the steps. -/
inductive Step (σ : System) : Event → System → Prop
  | handle {sig : Signal} {res : Int} (hdisposition : σ.process.disposition sig = .handler)
      (hres : intAdd? (σ.process.res sig) 1 = some res) :
    Step σ (.deliver sig) { σ with process := (σ.process.activate sig).store sig res }
  | drop {sig : Signal} (hdisposition : σ.process.disposition sig ≠ .handler) : Step σ (.deliver sig) σ
  | poll (hpc : σ.pc = .working) : Step σ .main { σ with pc := .enter Process.order }
  | pending {sig : Signal} {rest : List Signal} (hpc : σ.pc = .testing sig rest)
      (hres : σ.process.res sig ≠ 0) :
    Step σ .main { σ with pc := .reporting (Process.reactions sig) sig rest }
  | none {sig : Signal} {rest : List Signal} (hpc : σ.pc = .testing sig rest)
      (hres : σ.process.res sig = 0) : Step σ .main { σ with pc := .enter rest }
  | sigaction {r : Signal × Disposition} {todo : List (Signal × Disposition)} {sig : Signal}
      {rest : List Signal} (hpc : σ.pc = .reporting (r :: todo) sig rest) :
    Step σ .main ⟨σ.process.sigaction r.1 r.2, .reporting todo sig rest⟩
  | report {sig : Signal} {rest : List Signal} (hpc : σ.pc = .reporting [] sig rest) :
    Step σ .main ⟨σ.process.report sig, .loading sig rest⟩
  | load {sig : Signal} {rest : List Signal} (hpc : σ.pc = .loading sig rest) :
    Step σ .main { σ with pc := .storing sig rest (σ.process.res sig) }
  | store {sig : Signal} {rest : List Signal} {loaded res : Int} (hpc : σ.pc = .storing sig rest loaded)
      (hres : intAdd? loaded (-1) = some res) :
    Step σ .main ⟨σ.process.store sig res, .testing sig rest⟩

theorem step_cases {σ σ' : System} {e : Event} (h : σ.step e = some σ') : Step σ e σ' := by
  cases e with
  | deliver sig =>
    obtain ⟨p, hp, rfl⟩ := Option.map_eq_some_iff.mp h
    unfold Process.deliver at hp
    split at hp
    case h_1 hdisposition =>
      obtain ⟨res, hres, rfl⟩ := Option.map_eq_some_iff.mp hp
      exact .handle hdisposition hres
    case h_2 hdisposition =>
      cases hp
      exact .drop (by rw [hdisposition]; exact Disposition.noConfusion)
    case h_3 hdisposition =>
      split_ifs at hp
      cases hp
      exact .drop (by rw [hdisposition]; exact Disposition.noConfusion)
  | main =>
    simp only [step, mainStep] at h
    split at h
    case h_1 hpc => cases h; exact .poll hpc
    case h_2 sig rest hpc =>
      cases h
      split_ifs with hres
      · exact .pending hpc hres
      · exact .none hpc (not_not.mp hres)
    case h_3 r todo sig rest hpc => cases h; exact .sigaction hpc
    case h_4 sig rest hpc => cases h; exact .report hpc
    case h_5 sig rest hpc => cases h; exact .load hpc
    case h_6 sig rest loaded hpc =>
      obtain ⟨res, hres, rfl⟩ := Option.map_eq_some_iff.mp h
      exact .store hpc hres

end System
end OsExercises.Signals
