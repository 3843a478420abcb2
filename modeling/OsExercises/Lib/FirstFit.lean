import Mathlib.Data.List.TakeDrop
import Mathlib.Data.List.TakeWhile
import OsExercises.Lib.AllocatorClient
import OsExercises.Lib.Tiling

/-!
# First fit with coalescing

The allocator whose heap is the list of blocks itself: a request takes the first free block that is
long enough, with `header` bytes more than asked for, and splits it if the rest is worth a block; a
release merges the block with its free neighbours.
-/

namespace OsExercises.Tiling

variable {α : Type*} {p : α → Bool} {x : α} {xs ys : List α}

theorem span_append_cons (hxs : ∀ y ∈ xs, p y = true) (hx : p x = false) :
    (xs ++ x :: ys).span p = (xs, x :: ys) := by
  have hx' : ¬ p x = true := by simp [hx]
  rw [List.span_eq_takeWhile_dropWhile, List.takeWhile_append_of_pos hxs,
    List.dropWhile_append_of_pos hxs, List.takeWhile_cons_of_neg hx', List.dropWhile_cons_of_neg hx',
    List.append_nil]

theorem span_of_all (hxs : ∀ y ∈ xs, p y = true) : xs.span p = (xs, []) := by
  rw [List.span_eq_takeWhile_dropWhile, List.takeWhile_eq_self_iff.mpr hxs,
    List.dropWhile_eq_nil_iff.mpr hxs]

/-- Pointers are `header` bytes behind the address of their block. Only an allocated pointer has a
block to release. -/
def firstFit (header : Nat) : Allocator (List Block) where
  malloc size l :=
    if size = 0 then some (l, 0)
    else
      match l.span fun b => !fits (size + header) b with
      | (_, []) => some (l, 0)
      | (P, b :: Q) => some (P ++ (carve header (size + header) b ++ Q), b.addr + header)
  free p l :=
    match l.span fun b => b.addr + header ≠ p with
    | (_, []) => none
    | (P, b :: Q) => some (release P b Q)
  write _ _ l := l

namespace firstFit

variable {header size : Nat} {b : Block} {l P Q : List Block}

theorem malloc_refused (h : size = 0 ∨ ∀ c ∈ l, fits (size + header) c = false) :
    (firstFit header).malloc size l = some (l, 0) := by
  by_cases hzero : size = 0
  · exact if_pos hzero
  · have hspan : (l.span fun c => !fits (size + header) c) = (l, []) :=
      span_of_all fun c hc => by simp [h.resolve_left hzero c hc]
    simp only [firstFit, hzero, if_false, hspan]

theorem malloc_found (hzero : size ≠ 0) (hP : ∀ c ∈ P, fits (size + header) c = false)
    (hb : fits (size + header) b = true) : (firstFit header).malloc size (P ++ b :: Q) =
      some (P ++ (carve header (size + header) b ++ Q), b.addr + header) := by
  have hspan : ((P ++ b :: Q).span fun c => !fits (size + header) c) = (P, b :: Q) :=
    span_append_cons (fun c hc => by simp [hP c hc]) (by simp [hb])
  simp only [firstFit, hzero, if_false, hspan]

theorem free_append_cons (hP : ∀ c ∈ P, c.addr ≠ b.addr) :
    (firstFit header).free (b.addr + header) (P ++ b :: Q) = some (release P b Q) := by
  have hspan : ((P ++ b :: Q).span fun c => c.addr + header ≠ b.addr + header) = (P, b :: Q) := by
    refine span_append_cons (fun c hc => ?_) (by simp)
    have hne := hP c hc
    exact decide_eq_true (by omega)
  simp only [firstFit, hspan]

end firstFit
end OsExercises.Tiling
