import Mathlib.Data.Fintype.Basic
import Mathlib.Logic.Function.Basic

/-!
# A barrier for all threads of a program

The barrier as its users see it: a thread is outside, waits for the others, or has been let go and is
still to return, one of each round as the serial thread (`Place`). A round is complete when all
threads wait (`complete?`).

A `Machine` is an implementation that takes steps of its own; a `Refinement` of it maps each of its
states to the places of the threads, so that its own steps complete a round or are not seen. A program
is verified for every machine with a refinement.
-/

namespace OsExercises.CyclicBarrier

inductive Place where
  | outside
  | waiting
  /-- The round is complete. -/
  | released (serial : Bool)
deriving DecidableEq

variable {T : Type} [DecidableEq T]

def call? (places : T → Place) (t : T) : Option (T → Place) :=
  if places t = .outside then some (Function.update places t .waiting) else none

/-- `t` is the serial thread of the round. -/
def complete? [Fintype T] (places : T → Place) (t : T) : Option (T → Place) :=
  if ∀ u, places u = .waiting then some fun u => .released (u = t) else none

def return? (places : T → Place) (t : T) : Option (Bool × (T → Place)) :=
  match places t with
  | .released serial => some (serial, Function.update places t .outside)
  | _ => none

section Cases

variable {places places' : T → Place} {t : T} {serial : Bool}

theorem call?_cases (h : call? places t = some places') :
    places t = .outside ∧ places' = Function.update places t .waiting := by
  unfold call? at h
  split at h <;> cases h
  exact ⟨by assumption, rfl⟩

theorem complete?_cases [Fintype T] (h : complete? places t = some places') :
    (∀ u, places u = .waiting) ∧ places' = fun u => .released (u = t) := by
  unfold complete? at h
  split at h <;> cases h
  exact ⟨by assumption, rfl⟩

theorem return?_cases (h : return? places t = some (serial, places')) :
    places t = .released serial ∧ places' = Function.update places t .outside := by
  unfold return? at h
  split at h <;> cases h
  exact ⟨by assumption, rfl⟩

end Cases

/-- An implementation of the barrier for the threads `T`. -/
structure Machine (T : Type) where
  State : Type
  Event : Type
  start : State
  /-- The step may never happen. -/
  spurious : Event → Bool
  call : State → T → Option State
  internal : State → Event → Option State
  /-- The call returns, with whether the thread is the serial thread. -/
  ret : State → T → Option (Bool × State)

/-- What the steps of a machine do to the places of the threads; and that it goes on when a thread has
been let go or when all have arrived. -/
structure Refinement [Fintype T] (M : Machine T) where
  Ok : M.State → Prop
  places : M.State → T → Place
  start : Ok M.start ∧ ∀ t, places M.start t = .outside
  call : ∀ s t s', Ok s → M.call s t = some s' → Ok s' ∧ call? (places s) t = some (places s')
  internal : ∀ s e s', Ok s → M.internal s e = some s' →
    Ok s' ∧ (places s' = places s ∨ ∃ t, complete? (places s) t = some (places s'))
  ret : ∀ s t serial s', Ok s → M.ret s t = some (serial, s') →
    Ok s' ∧ return? (places s) t = some (serial, places s')
  enabled : ∀ s t, Ok s → places s t = .outside → ∃ s', M.call s t = some s'
  goesOn : ∀ s, Ok s → (∃ t serial, places s t = .released serial) ∨ (∀ t, places s t = .waiting) →
    (∃ e s', M.spurious e = false ∧ M.internal s e = some s') ∨
      ∃ t serial s', M.ret s t = some (serial, s')

/-- The barrier itself, with any serial thread. -/
def spec (T : Type) [DecidableEq T] [Fintype T] : Machine T where
  State := T → Place
  Event := T
  start := fun _ => .outside
  spurious := fun _ => false
  call := call?
  internal := complete?
  ret := return?

def spec_refinement (T : Type) [DecidableEq T] [Fintype T] [Nonempty T] : Refinement (spec T) where
  Ok := fun _ => True
  places := id
  start := ⟨trivial, fun _ => rfl⟩
  call := fun _ _ _ _ h => ⟨trivial, h⟩
  internal := fun _ t _ _ h => ⟨trivial, .inr ⟨t, h⟩⟩
  ret := fun _ _ _ _ _ h => ⟨trivial, h⟩
  enabled := fun _ _ _ h => ⟨_, if_pos h⟩
  goesOn := by
    rintro places - (⟨t, serial, ht⟩ | hall)
    · refine .inr ⟨t, serial, Function.update places t .outside, ?_⟩
      simp only [spec, return?, id] at ht ⊢
      rw [ht]
    · obtain ⟨t⟩ := ‹Nonempty T›
      exact .inl ⟨t, _, rfl, if_pos hall⟩

end OsExercises.CyclicBarrier
