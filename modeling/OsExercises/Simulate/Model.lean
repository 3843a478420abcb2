import OsExercises.Lib.CInt
import OsExercises.Lib.Processes

/-!
# The processes of `simulate`

`simulate` of `src/exercise02/task3/task3.c`: the parent forks a child for each target, the loop that
forks ends in the children, and both sides run the same code behind `fork`. `simulated` is not part of
the program: it records the targets a process called `simulate_target` with.
-/

namespace OsExercises.Simulate
open Processes

inductive Pc where
  /-- At `fork`, in the loop over the targets. -/
  | forking (target : Int)
  /-- At `wait`, in the loop that collects the children. -/
  | waiting (i : Int)
  /-- At `simulate_target`. -/
  | simulating (target : Int)
  /-- `simulate` has returned to `main`. -/
  | returned (r : Int)
  /-- After `exit(EXIT_SUCCESS)`. -/
  | exited
  /-- After a signed overflow. -/
  | undefined
deriving DecidableEq

structure State where
  pc : Pc
  simulated : List Int
deriving DecidableEq

/-- `clock_gettime` tells the time or fails. -/
def simulateTarget (clock : Bool) : Int := if clock then 0 else -1

/-- At the condition of the loop that collects the children. -/
def forLoop (eyes i : Int) : Pc :=
  match intMul? eyes 2 with
  | none => .undefined
  | some targets => if i ≤ targets then .waiting i else .returned 0

/-- At the condition of the loop over the targets. -/
def whileLoop (eyes pid target : Int) : Pc :=
  match intMul? eyes 2 with
  | none => .undefined
  | some targets =>
    if pid ≠ 0 ∧ target < targets then .forking target
    else if pid ≠ 0 then forLoop eyes 2
    else .simulating target

/-- Behind `pid = fork()`. -/
def afterFork (eyes pid target : Int) : Pc :=
  match intAdd? target 1 with
  | none => .undefined
  | some target => if pid = -2 then .returned (-2) else whileLoop eyes pid target

/-- Behind `wait(NULL)`. -/
def afterWait (eyes i : Int) : Pc :=
  match intAdd? i 1 with
  | none => .undefined
  | some i => forLoop eyes i

def next (eyes : Int) (s : State) : Action State :=
  match s.pc with
  | .forking target => .fork fun pid => { s with pc := afterFork eyes pid target }
  | .waiting i => .wait { s with pc := afterWait eyes i }
  | .simulating target => .call fun clock =>
    ⟨if simulateTarget clock = -1 then .returned (-1) else .exited, s.simulated ++ [target]⟩
  | .returned _ | .exited | .undefined => .ended

def start (eyes : Int) : Table State := .start ⟨whileLoop eyes 1 1, []⟩

end OsExercises.Simulate
