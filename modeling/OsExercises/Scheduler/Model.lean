import OsExercises.Lib.Atoi
import OsExercises.Lib.Strtok

/-!
# The scheduler and the service

`src/exercise05/task_1/scheduler.c` and `service.c`. A `Pass` of the receive loop is what `mq_receive`
and the sleeps return in it and whether `SIGINT` has come by its end. `mq_receive` stores the bytes of the
message and no terminator behind them.
-/

namespace OsExercises.Scheduler

def MSG_SIZE : Nat := 8192

/-! ### The service -/

/-- What is sent for the text that was read into `stdinBuf`. -/
def service (stdinBuf input : Bytes) : Option Bytes := cString? (overwrite stdinBuf (input ++ [NUL]))

/-! ### The statistics -/

structure Stats where
  max : Int
  min : Int
  sum : Int
  count : Nat
deriving DecidableEq

def Stats.start : Stats := ⟨INT_MIN, INT_MAX, 0, 0⟩

def Stats.add (stats : Stats) (val : Int) : Option Stats :=
  (intAdd? stats.sum val).map fun sum =>
    ⟨if val > stats.max then val else stats.max, if val < stats.min then val else stats.min, sum,
      stats.count + 1⟩

/-- How the receive loop can be left early. -/
inductive Failure where
  /-- Undefined behaviour. -/
  | undefined
  /-- `thrd_sleep` was interrupted. -/
  | sleep
deriving DecidableEq

/-- The body of the token loop; `sleeps k` says whether the sleep after token `k` succeeds. -/
def body (sleeps : Nat → Bool) (stats : Stats) (token : Bytes) : Except Failure Stats :=
  match (atoi? token).bind stats.add with
  | none => .error .undefined
  | some stats' => if sleeps stats.count then .ok stats' else .error .sleep

def tokenCount (str : Bytes) : Nat := 1 + str.count SPACE

/-! ### The receive loop -/

structure Report where
  stats : Stats
  tokenAmount : Nat
deriving DecidableEq

structure Pass where
  /-- None if `mq_receive` fails. -/
  received : Option Bytes
  sleeps : Nat → Bool
  shutdown : Bool

/-- The buffer after `mq_receive`. -/
def Pass.receive (p : Pass) (msgBuf : Bytes) : Bytes :=
  match p.received with
  | some message => overwrite msgBuf message
  | none => msgBuf

/-- The rest of a pass: what is printed at its end, and the buffer then. -/
def process (sleeps : Nat → Bool) (msgBuf : Bytes) : Except Failure (Report × Bytes) :=
  match cString? msgBuf with
  | none => .error .undefined
  | some str =>
    (tokenLoop .undefined SPACE (body sleeps) (msgBuf.length + 1) .start msgBuf).map fun r =>
      (⟨r.1, tokenCount str⟩, r.2)

structure Entry where
  pass : Pass
  /-- The buffer that was processed. -/
  msgBuf : Bytes
  report : Option Report

/-- The passes of a run; none if it is undefined. -/
def main : Bytes → List Pass → Option (List Entry)
  | _, [] => some []
  | msgBuf, p :: passes =>
    match process p.sleeps (p.receive msgBuf) with
    | .error .undefined => none
    | .error .sleep => some [⟨p, p.receive msgBuf, none⟩]
    | .ok r =>
      if p.shutdown then some [⟨p, p.receive msgBuf, some r.1⟩]
      else (main r.2 passes).map fun log => ⟨p, p.receive msgBuf, some r.1⟩ :: log

end OsExercises.Scheduler
