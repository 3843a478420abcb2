import Mathlib.Tactic.FinCases
import OsExercises.Lib.CInt
import OsExercises.Lib.Grid

/-!
# The flower field

`field_t` of `src/exercise12/task_1/beehive.c`, with the four neighbours of a position as `bee_work`
lists them. A position outside of the field counts as harvested.
-/

namespace OsExercises.Beehive
open Grid

/-- `field_t`, `flowers` is read and written inside of the field only. -/
structure Field where
  flowers : Pos → Bool
  width : Int
  height : Int

def fieldInit (width height : Int) : Field := ⟨fun _ => false, width, height⟩

def fieldHarvest (field : Field) (x y : Int) : Field :=
  if x ≥ 0 ∧ x < field.width ∧ y ≥ 0 ∧ y < field.height then
    { field with flowers := Function.update field.flowers ⟨x, y⟩ true }
  else field

def fieldIsHarvested (field : Field) (x y : Int) : Bool :=
  if x < 0 ∨ x ≥ field.width ∨ y < 0 ∨ y ≥ field.height then true else field.flowers ⟨x, y⟩

/-- The positions of the field in the order of the two loops. -/
def positions (field : Field) : List Pos :=
  (List.range field.width.toNat).flatMap fun (i : Nat) =>
    (List.range field.height.toNat).map fun (j : Nat) => ⟨i, j⟩

/-- `none` if `count` overflows. -/
def fieldCountHarvested (field : Field) : Option Int :=
  (positions field).foldlM (fun count p => if field.flowers p then intAdd? count 1 else some count) 0

def fieldAllIsHarvested (field : Field) : Bool := (positions field).all field.flowers

/-- With the two values of `rand`. -/
def fieldRandomPos (field : Field) (r₁ r₂ : Nat) : Pos := ⟨r₁ % field.width, r₂ % field.height⟩

/-- The array `neighbours` of `bee_work`. -/
def neighbours (position : Pos) : Fin 4 → Pos
  | 0 => ⟨position.x + 1, position.y⟩
  | 1 => ⟨position.x - 1, position.y⟩
  | 2 => ⟨position.x, position.y + 1⟩
  | 3 => ⟨position.x, position.y - 1⟩

variable {field : Field} {p q : Pos} {x y : Int}

/-! ### Single positions -/

theorem fieldIsHarvested_eq_false : fieldIsHarvested field p.x p.y = false ↔
    Inside field.width field.height p ∧ field.flowers p = false := by
  unfold fieldIsHarvested
  split
  · next hout =>
    simp only [Inside, Bool.true_eq_false, false_iff]
    omega
  · next hin =>
    have : Inside field.width field.height p := by
      unfold Inside
      omega
    exact ⟨fun h => ⟨this, h⟩, fun h => h.2⟩

theorem fieldHarvest_of_inside (h : Inside field.width field.height p) :
    fieldHarvest field p.x p.y = { field with flowers := Function.update field.flowers p true } :=
  if_pos ⟨h.1, h.2.1, h.2.2.1, h.2.2.2⟩

/-- A harvested flower stays harvested. -/
theorem fieldHarvest_mono (h : field.flowers q = true) :
    (fieldHarvest field x y).flowers q = true := by
  unfold fieldHarvest
  split
  · by_cases hq : q = ⟨x, y⟩
    · rw [hq]
      exact Function.update_self ..
    · exact (Function.update_of_ne hq ..).trans h
  · exact h

theorem fieldHarvest_width : (fieldHarvest field x y).width = field.width := by
  unfold fieldHarvest
  split <;> rfl

theorem fieldHarvest_height : (fieldHarvest field x y).height = field.height := by
  unfold fieldHarvest
  split <;> rfl

theorem fieldHarvest_isHarvested {x' y' : Int} (h : fieldIsHarvested field x' y' = true) :
    fieldIsHarvested (fieldHarvest field x y) x' y' = true := by
  have hflower := @fieldHarvest_mono field ⟨x', y'⟩ x y
  unfold fieldIsHarvested at *
  rw [fieldHarvest_width, fieldHarvest_height]
  split at h
  · next hout => rw [if_pos hout]
  · next hin =>
    rw [if_neg hin]
    exact hflower h

theorem inside_fieldRandomPos (hw : 1 ≤ field.width) (hh : 1 ≤ field.height) (r₁ r₂ : Nat) :
    Inside field.width field.height (fieldRandomPos field r₁ r₂) :=
  ⟨Int.emod_nonneg _ (by omega), Int.emod_lt_of_pos _ (by omega), Int.emod_nonneg _ (by omega),
    Int.emod_lt_of_pos _ (by omega)⟩

/-! ### All positions -/

theorem mem_positions : p ∈ positions field ↔ Inside field.width field.height p := mem_columns

theorem nodup_positions : (positions field).Nodup := nodup_columns

theorem length_positions : (positions field).length = field.width.toNat * field.height.toNat :=
  length_columns

theorem fieldAllIsHarvested_iff : fieldAllIsHarvested field = true ↔
    ∀ p, Inside field.width field.height p → field.flowers p = true := by
  simp only [fieldAllIsHarvested, List.all_eq_true, mem_positions]

theorem fieldAllIsHarvested_fieldHarvest (h : fieldAllIsHarvested field = true) :
    fieldAllIsHarvested (fieldHarvest field x y) = true := by
  rw [fieldAllIsHarvested_iff] at *
  rw [fieldHarvest_width, fieldHarvest_height]
  exact fun p hp => fieldHarvest_mono (h p hp)

/-- The number of harvested flowers. -/
def Field.harvested (field : Field) : Nat := (positions field).countP field.flowers

theorem Field.harvested_le : field.harvested ≤ field.width.toNat * field.height.toNat :=
  List.countP_le_length.trans_eq length_positions

theorem Field.harvested_of_all (h : fieldAllIsHarvested field = true) :
    field.harvested = field.width.toNat * field.height.toNat := by
  rw [← length_positions]
  exact List.countP_eq_length.mpr (List.all_eq_true.mp h)

/-- The loop of `field_count_harvested` from a position on. -/
theorem countLoop (flowers : Pos → Bool) (ps : List Pos) (count : Nat) (hcount : count ≤ INT_MAX) :
    ps.foldlM (fun count p => if flowers p then intAdd? count 1 else some count) (count : Int) =
      if ((count + ps.countP flowers : Nat) : Int) ≤ INT_MAX
      then some ((count + ps.countP flowers : Nat) : Int) else none := by
  induction ps generalizing count with
  | nil => simp [hcount]
  | cons p ps ih =>
    rw [List.foldlM_cons]
    by_cases hp : flowers p = true
    · rw [if_pos hp, List.countP_cons_of_pos hp]
      by_cases hmax : ((count + 1 : Nat) : Int) ≤ INT_MAX
      · have hadd : intAdd? count 1 = some ((count + 1 : Nat) : Int) :=
          intAdd?_eq_some (by push_cast; rfl) (by unfold INT_MIN; omega) hmax
        rw [hadd, Option.bind_eq_bind, Option.bind_some, ih (count + 1) hmax]
        simp only [Nat.add_assoc, Nat.add_comm 1]
      · rw [intAdd?_eq_none (by push_cast at hmax; omega), if_neg (by push_cast at hmax ⊢; omega)]
        rfl
    · rw [if_neg hp, List.countP_cons_of_neg hp]
      exact ih count hcount

/-- The result is exact as long as it is an `int`. -/
theorem fieldCountHarvested_eq : fieldCountHarvested field =
    if (field.harvested : Int) ≤ INT_MAX then some (field.harvested : Int) else none := by
  have h := countLoop field.flowers (positions field) 0 (by decide)
  rw [Nat.zero_add] at h
  exact h

/-- The harvested flowers, each listed once. -/
theorem Field.harvested_eq {ps : List Pos} (hnodup : ps.Nodup)
    (hps : ∀ p, p ∈ ps ↔ Inside field.width field.height p ∧ field.flowers p = true) :
    field.harvested = ps.length := by
  rw [Field.harvested, List.countP_eq_length_filter]
  refine List.Perm.length_eq ((List.perm_ext_iff_of_nodup (nodup_positions.filter _) hnodup).mpr ?_)
  intro p
  rw [List.mem_filter, mem_positions, hps]

/-! ### Neighbours -/

theorem adj_neighbours (p : Pos) : ∀ i, Adj p (neighbours p i)
  | 0 => .inl ⟨rfl, .inl rfl⟩
  | 1 => .inl ⟨rfl, .inr (Int.sub_add_cancel ..).symm⟩
  | 2 => .inr ⟨rfl, .inl rfl⟩
  | 3 => .inr ⟨rfl, .inr (Int.sub_add_cancel ..).symm⟩

theorem exists_neighbours (h : Adj p q) : ∃ i, neighbours p i = q := by
  obtain ⟨x, y⟩ := p
  obtain ⟨x', y'⟩ := q
  obtain ⟨hy, hx | hx⟩ | ⟨hx, hy | hy⟩ := h <;> simp only at hx hy
  · exact ⟨0, by simp [neighbours, hx, hy]⟩
  · exact ⟨1, by simp [neighbours, hx, hy]⟩
  · exact ⟨2, by simp [neighbours, hx, hy]⟩
  · exact ⟨3, by simp [neighbours, hx, hy]⟩

theorem neighbours_injective (p : Pos) : Function.Injective (neighbours p) := by
  intro i j h
  fin_cases i <;> fin_cases j <;> simp only [neighbours, Pos.mk.injEq] at h <;> first
    | rfl
    | omega

/-- The arithmetic of `bee_work` does not overflow. -/
theorem neighbours_int (hw : field.width ≤ INT_MAX) (hh : field.height ≤ INT_MAX)
    (hp : Inside field.width field.height p) (i : Fin 4) :
    INT_MIN ≤ (neighbours p i).x ∧ (neighbours p i).x ≤ INT_MAX ∧
      INT_MIN ≤ (neighbours p i).y ∧ (neighbours p i).y ≤ INT_MAX := by
  have hadj := adj_neighbours p i
  unfold Adj at hadj
  unfold Inside at hp
  unfold INT_MIN INT_MAX at *
  omega

end OsExercises.Beehive
