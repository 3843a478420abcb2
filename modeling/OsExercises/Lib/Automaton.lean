import Mathlib.Algebra.BigOperators.Group.Finset.Piecewise
import OsExercises.Lib.Grid

/-!
# Cellular automata with two states

Whether a cell is alive next depends on whether it is alive and on how many of its neighbours are. The
cells outside of a region are dead at all times. `conway` is the game of life on the positions of the
plane.
-/

namespace OsExercises

structure Automaton (C : Type*) where
  neighbours : C → Finset C
  /-- Whether a cell is alive next, from whether it is alive and the number of its live neighbours. -/
  rule : Bool → Nat → Bool

namespace Automaton

variable {C : Type*} (A : Automaton C) {inside : C → Bool} {alive : C → Bool} {c : C}

def aliveNeighbours (alive : C → Bool) (c : C) : Nat :=
  ((A.neighbours c).filter fun d => alive d = true).card

def next (inside alive : C → Bool) : C → Bool :=
  fun c => inside c && A.rule (alive c) (A.aliveNeighbours alive c)

theorem aliveNeighbours_eq_sum : A.aliveNeighbours alive c = ∑ d ∈ A.neighbours c, (alive d).toNat := by
  unfold aliveNeighbours
  rw [Finset.card_filter]
  refine Finset.sum_congr rfl fun d _ => ?_
  cases alive d <;> rfl

theorem next_of_not_inside (hc : inside c = false) : A.next inside alive c = false := by
  simp [next, hc]

theorem iterate_next_of_not_inside (hc : inside c = false) (halive : alive c = false) (k : Nat) :
    (A.next inside)^[k] alive c = false := by
  cases k with
  | zero => exact halive
  | succ k =>
    rw [Function.iterate_succ_apply']
    exact A.next_of_not_inside hc

end Automaton

/-! ### The game of life -/

open Grid

/-- The ways to a position that shares a side or a corner. -/
def offsets : Finset (Int × Int) :=
  {(-1, -1), (0, -1), (1, -1), (-1, 0), (1, 0), (-1, 1), (0, 1), (1, 1)}

def shift (p : Pos) : Int × Int ↪ Pos where
  toFun := fun d => ⟨p.x + d.1, p.y + d.2⟩
  inj' := by
    rintro ⟨dx, dy⟩ ⟨dx', dy'⟩ h
    obtain ⟨hx, hy⟩ := Pos.mk.inj h
    exact Prod.ext (Int.add_left_cancel hx) (Int.add_left_cancel hy)

def conway : Automaton Pos where
  neighbours := fun p => offsets.map (shift p)
  rule := fun alive n => n = 3 || alive && n = 2

end OsExercises
