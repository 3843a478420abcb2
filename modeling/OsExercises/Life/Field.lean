import OsExercises.Lib.Automaton
import OsExercises.Lib.CInt

/-!
# Fields

`t_field` of `src/exercise01/task1/template/game.c` and the functions that read and write single cells.
The cells are stored row by row in an array with one entry for each position, so that no access is out
of bounds. The two fields of `main` have the same size; a function that takes a pointer to a field finds
it in the heap at each access.
-/

namespace OsExercises.Life
open Grid

/-- The sizes of the fields; `init_field` returns `NULL` for the others. -/
structure Size where
  width : Int
  height : Int
  width_pos : 1 ≤ width
  height_pos : 1 ≤ height
  area_le : width * height ≤ INT_MAX

namespace Size

variable (s : Size) {p : Pos}

def area : Nat := (s.width * s.height).toNat

theorem area_int : (s.area : Int) = s.width * s.height :=
  Int.toNat_of_nonneg (Int.mul_nonneg (by have := s.width_pos; omega) (by have := s.height_pos; omega))

variable {s}

theorem offset_nonneg (h : Inside s.width s.height p) : 0 ≤ p.x + p.y * s.width := by
  have hrow : 0 ≤ p.y * s.width := Int.mul_nonneg h.2.2.1 (by have := s.width_pos; omega)
  have := h.1
  omega

theorem offset_lt (h : Inside s.width s.height p) : p.x + p.y * s.width < s.area := by
  have hrow : p.y * s.width + 1 * s.width ≤ s.height * s.width := by
    rw [← Int.add_mul]
    exact Int.mul_le_mul_of_nonneg_right h.2.2.2 (by have := s.width_pos; omega)
  rw [s.area_int, Int.mul_comm s.width]
  have := h.2.1
  omega

/-- Where `data` has the cell at a position. -/
def index (p : Pos) (h : Inside s.width s.height p) : Fin s.area :=
  ⟨(p.x + p.y * s.width).toNat, by
    have h1 := offset_nonneg h
    have h2 := offset_lt h
    omega⟩

def pos (i : Fin s.area) : Pos := ⟨i % s.width, i / s.width⟩

theorem inside_pos (i : Fin s.area) : Inside s.width s.height (pos i) := by
  have hw := s.width_pos
  refine ⟨Int.emod_nonneg _ (by omega), Int.emod_lt_of_pos _ (by omega), Int.ediv_nonneg (by omega) (by omega), ?_⟩
  refine Int.ediv_lt_of_lt_mul (by omega) ?_
  rw [Int.mul_comm, ← s.area_int]
  exact_mod_cast i.isLt

theorem index_pos (i : Fin s.area) : index (pos i) (inside_pos i) = i := by
  refine Fin.ext ?_
  show ((i : Int) % s.width + (i : Int) / s.width * s.width).toNat = i
  rw [Int.emod_add_ediv_mul]
  exact Int.toNat_natCast _

theorem pos_index (h : Inside s.width s.height p) : pos (index p h) = p := by
  obtain ⟨x, y⟩ := p
  have hcast : ((index ⟨x, y⟩ h : Nat) : Int) = x + y * s.width := Int.toNat_of_nonneg (offset_nonneg h)
  have hw := s.width_pos
  rw [pos, hcast, Int.add_mul_emod_self_right, Int.emod_eq_of_lt h.1 h.2.1,
    Int.add_mul_ediv_right _ _ (by omega), Int.ediv_eq_zero_of_lt h.1 h.2.1, Int.zero_add]

end Size

/-- The array `data`. -/
abbrev Data (s : Size) := Fin s.area → Bool

variable {s : Size}

/-- The grid that is stored; the cells outside of it are dead. -/
def cells (data : Data s) (p : Pos) : Bool :=
  if h : Inside s.width s.height p then data (Size.index p h) else false

def store (alive : Pos → Bool) : Data s := fun i => alive (Size.pos i)

theorem cells_of_inside {data : Data s} {p : Pos} (h : Inside s.width s.height p) :
    cells data p = data (Size.index p h) := dif_pos h

theorem cells_of_not_inside {data : Data s} {p : Pos} (h : ¬ Inside s.width s.height p) :
    cells data p = false := dif_neg h

theorem cells_pos (data : Data s) (i : Fin s.area) : cells data (Size.pos i) = data i := by
  rw [cells_of_inside (Size.inside_pos i), Size.index_pos]

/-- An array is determined by the cells of its grid. -/
theorem eq_store {data : Data s} {alive : Pos → Bool}
    (h : ∀ p, Inside s.width s.height p → cells data p = alive p) : data = store alive := by
  funext i
  rw [← cells_pos data i]
  exact h _ (Size.inside_pos i)

/-! ### The functions on single cells -/

/-- What the bounds checks test. -/
theorem inside_iff {x y : Int} :
    Inside s.width s.height ⟨x, y⟩ ↔ ¬ (x < 0 ∨ x ≥ s.width ∨ y < 0 ∨ y ≥ s.height) := by
  show (0 ≤ x ∧ x < s.width ∧ 0 ≤ y ∧ y < s.height) ↔ _
  omega

/-- The fields of `main`. -/
inductive FieldPtr where
  | field1
  | field2
deriving DecidableEq

abbrev Heap (s : Size) := FieldPtr → Data s

/-- `none` is `NULL`. -/
def getValueField (heap : Heap s) (field : Option FieldPtr) (x y : Int) : Bool :=
  match field with
  | none => false
  | some f =>
    if h : x < 0 ∨ x ≥ s.width ∨ y < 0 ∨ y ≥ s.height then false
    else heap f (Size.index ⟨x, y⟩ (inside_iff.mpr h))

def setValueField (heap : Heap s) (field : Option FieldPtr) (x y : Int) (value : Bool) : Heap s :=
  match field with
  | none => heap
  | some f =>
    if h : x < 0 ∨ x ≥ s.width ∨ y < 0 ∨ y ≥ s.height then heap
    else Function.update heap f
      (Function.update (heap f) (Size.index ⟨x, y⟩ (inside_iff.mpr h)) value)

def directions : List (Int × Int) :=
  [(0, 1), (1, 1), (1, 0), (1, -1), (0, -1), (-1, -1), (-1, 0), (-1, 1)]

def aliveNeighboursField (heap : Heap s) (field : Option FieldPtr) (x y : Int) : Int :=
  match field with
  | none => -1
  | some _ => directions.foldl
    (fun count d => count + if getValueField heap field (x + d.1) (y + d.2) then 1 else 0) 0

variable {heap : Heap s} {f g : FieldPtr} {p : Pos} {value : Bool}

theorem getValueField_eq (x y : Int) : getValueField heap (some f) x y = cells (heap f) ⟨x, y⟩ := by
  simp only [getValueField]
  split
  · next hout => rw [cells_of_not_inside (fun hin => inside_iff.mp hin hout)]
  · next hin => rw [cells_of_inside (inside_iff.mpr hin)]

theorem setValueField_of_ne (hgf : g ≠ f) (x y : Int) :
    setValueField heap (some f) x y value g = heap g := by
  unfold setValueField
  simp only
  split
  · rfl
  · exact Function.update_of_ne hgf ..

theorem cells_setValueField (h : Inside s.width s.height p) :
    cells (setValueField heap (some f) p.x p.y value f) = Function.update (cells (heap f)) p value := by
  have hin : ¬ (p.x < 0 ∨ p.x ≥ s.width ∨ p.y < 0 ∨ p.y ≥ s.height) := inside_iff.mp h
  unfold setValueField
  simp only [hin, dif_neg, not_false_eq_true, Function.update_self]
  funext q
  by_cases hq : Inside s.width s.height q
  · rw [cells_of_inside hq]
    by_cases hqp : q = p
    · subst hqp
      rw [Function.update_self, Function.update_self]
    · have hindex : Size.index q hq ≠ Size.index p h := by
        intro heq
        rw [← Size.pos_index hq, heq, Size.pos_index h] at hqp
        exact hqp rfl
      rw [Function.update_of_ne hqp, Function.update_of_ne hindex, cells_of_inside hq]
  · have hqp : q ≠ p := fun heq => hq (heq ▸ h)
    rw [Function.update_of_ne hqp, cells_of_not_inside hq, cells_of_not_inside hq]

theorem toFinset_directions : directions.toFinset = offsets := by decide

theorem aliveNeighboursField_eq (x y : Int) : aliveNeighboursField heap (some f) x y =
    conway.aliveNeighbours (cells (heap f)) ⟨x, y⟩ := by
  have hsum : conway.aliveNeighbours (cells (heap f)) ⟨x, y⟩ =
      (directions.map fun d => (cells (heap f) ⟨x + d.1, y + d.2⟩).toNat).sum := by
    rw [Automaton.aliveNeighbours_eq_sum]
    show ∑ q ∈ offsets.map (shift ⟨x, y⟩), _ = _
    rw [Finset.sum_map, ← toFinset_directions, List.sum_toFinset _ (by decide)]
    rfl
  rw [hsum]
  simp only [aliveNeighboursField, getValueField_eq, directions, List.foldl_cons, List.foldl_nil,
    List.map_cons, List.map_nil, List.sum_cons, List.sum_nil]
  have hnat : ∀ b : Bool, (if b = true then 1 else 0 : Int) = b.toNat := by decide
  simp only [hnat]
  omega

end OsExercises.Life
