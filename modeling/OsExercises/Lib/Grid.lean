import Mathlib.Algebra.Order.BigOperators.Group.Finset
import Mathlib.Data.Sym.Sym2

/-!
# Rectangular grids

The positions of a grid of `width` columns and `height` rows, and the pairs that share a side. A grid is
connected (`connected`), and at most `width * (height - 1) + height * (width - 1)` pairs share a side
(`card_edges_le`).
-/

namespace OsExercises.Grid

structure Pos where
  x : Int
  y : Int
deriving DecidableEq

def Inside (width height : Int) (p : Pos) : Prop := 0 ≤ p.x ∧ p.x < width ∧ 0 ≤ p.y ∧ p.y < height

instance (width height : Int) (p : Pos) : Decidable (Inside width height p) :=
  inferInstanceAs (Decidable (_ ∧ _))

/-- The two positions share a side. -/
def Adj (p q : Pos) : Prop :=
  p.y = q.y ∧ (q.x = p.x + 1 ∨ p.x = q.x + 1) ∨ p.x = q.x ∧ (q.y = p.y + 1 ∨ p.y = q.y + 1)

variable {width height : Int} {p q : Pos}

theorem Adj.symm (h : Adj p q) : Adj q p := by
  unfold Adj at *
  omega

/-! ### All positions -/

/-- The positions of the grid, column by column. -/
def columns (width height : Int) : List Pos :=
  (List.range width.toNat).flatMap fun (i : Nat) =>
    (List.range height.toNat).map fun (j : Nat) => ⟨i, j⟩

theorem mem_columns : p ∈ columns width height ↔ Inside width height p := by
  obtain ⟨x, y⟩ := p
  simp only [columns, List.mem_flatMap, List.mem_map, List.mem_range, Pos.mk.injEq, Inside]
  constructor
  · rintro ⟨i, hi, j, hj, rfl, rfl⟩
    omega
  · rintro ⟨hx, hxw, hy, hyh⟩
    exact ⟨x.toNat, by omega, y.toNat, by omega, by omega, by omega⟩

theorem nodup_columns : (columns width height).Nodup := by
  refine List.nodup_flatMap.mpr ⟨fun i _ => ?_, ?_⟩
  · refine (List.nodup_range ..).map fun j k heq => ?_
    simp only [Pos.mk.injEq] at heq
    omega
  · refine (List.nodup_range ..).imp fun {i j} hij => ?_
    intro p hi hj
    obtain ⟨k, -, rfl⟩ := List.mem_map.mp hi
    obtain ⟨l, -, heq⟩ := List.mem_map.mp hj
    simp only [Pos.mk.injEq] at heq
    exact hij (by omega)

theorem length_columns : (columns width height).length = width.toNat * height.toNat := by
  simp [columns, List.length_flatMap]

/-! ### Connectedness -/

theorem interval_connected {n : Int} {P : Int → Prop}
    (hstep : ∀ i, 0 ≤ i → i + 1 < n → (P i ↔ P (i + 1))) {a b : Int} (ha : 0 ≤ a) (hb : b < n)
    (hab : a ≤ b) : P a ↔ P b := by
  induction b, hab using Int.leInduction with
  | base => rfl
  | succ b hab ih => exact (ih (by omega)).trans (hstep b (by omega) hb)

/-- A set that contains a position of the grid, and with each position of the grid those next to it,
contains the grid. -/
theorem connected {S : Pos → Prop} (hp : Inside width height p) (hSp : S p)
    (hstep : ∀ p q, Inside width height p → Inside width height q → Adj p q → S p → S q)
    (hq : Inside width height q) : S q := by
  obtain ⟨x, y⟩ := p
  obtain ⟨x', y'⟩ := q
  obtain ⟨hx, hxw, hy, hyh⟩ := hp
  obtain ⟨hx', hxw', hy', hyh'⟩ := hq
  have hrow : ∀ i, 0 ≤ i → i + 1 < width → (S ⟨i, y⟩ ↔ S ⟨i + 1, y⟩) := by
    intro i hi hiw
    have hadj : Adj ⟨i, y⟩ ⟨i + 1, y⟩ := .inl ⟨rfl, .inl rfl⟩
    have hleft : Inside width height ⟨i, y⟩ := ⟨hi, by show i < _; omega, hy, hyh⟩
    have hright : Inside width height ⟨i + 1, y⟩ := ⟨by show 0 ≤ i + 1; omega, hiw, hy, hyh⟩
    exact ⟨hstep _ _ hleft hright hadj, hstep _ _ hright hleft hadj.symm⟩
  have hcolumn : ∀ i, 0 ≤ i → i + 1 < height → (S ⟨x', i⟩ ↔ S ⟨x', i + 1⟩) := by
    intro i hi hih
    have hadj : Adj ⟨x', i⟩ ⟨x', i + 1⟩ := .inr ⟨rfl, .inl rfl⟩
    have hlow : Inside width height ⟨x', i⟩ := ⟨hx', hxw', hi, by show i < _; omega⟩
    have hhigh : Inside width height ⟨x', i + 1⟩ := ⟨hx', hxw', by show 0 ≤ i + 1; omega, hih⟩
    exact ⟨hstep _ _ hlow hhigh hadj, hstep _ _ hhigh hlow hadj.symm⟩
  have hcorner : S ⟨x', y⟩ := by
    rcases Int.le_total x x' with h | h
    · exact (interval_connected (P := fun i => S ⟨i, y⟩) hrow hx hxw' h).mp hSp
    · exact (interval_connected (P := fun i => S ⟨i, y⟩) hrow hx' hxw h).mpr hSp
  rcases Int.le_total y y' with h | h
  · exact (interval_connected (P := fun i => S ⟨x', i⟩) hcolumn hy hyh' h).mp hcorner
  · exact (interval_connected (P := fun i => S ⟨x', i⟩) hcolumn hy' hyh h).mpr hcorner

/-! ### Edges -/

/-- The column and the row of the lower position. -/
def above (c : Nat × Nat) : Sym2 Pos := s(⟨c.1, c.2⟩, ⟨c.1, c.2 + 1⟩)

/-- The row and the column of the left position. -/
def beside (c : Nat × Nat) : Sym2 Pos := s(⟨c.2, c.1⟩, ⟨c.2 + 1, c.1⟩)

def edges (width height : Int) : Finset (Sym2 Pos) :=
  (Finset.range width.toNat ×ˢ Finset.range (height - 1).toNat).image above ∪
  (Finset.range height.toNat ×ˢ Finset.range (width - 1).toNat).image beside

theorem mem_edges_above {x y : Int} (hp : Inside width height ⟨x, y⟩)
    (hq : Inside width height ⟨x, y + 1⟩) : s(⟨x, y⟩, ⟨x, y + 1⟩) ∈ edges width height := by
  obtain ⟨hx, hxw, hy, -⟩ := hp
  obtain ⟨-, -, -, hyh⟩ := hq
  simp only at hx hxw hy hyh
  obtain ⟨i, rfl⟩ := Int.eq_ofNat_of_zero_le hx
  obtain ⟨j, rfl⟩ := Int.eq_ofNat_of_zero_le hy
  refine Finset.mem_union_left _ (Finset.mem_image.mpr ⟨(i, j), ?_, rfl⟩)
  rw [Finset.mem_product, Finset.mem_range, Finset.mem_range]
  omega

theorem mem_edges_beside {x y : Int} (hp : Inside width height ⟨x, y⟩)
    (hq : Inside width height ⟨x + 1, y⟩) : s(⟨x, y⟩, ⟨x + 1, y⟩) ∈ edges width height := by
  obtain ⟨hx, -, hy, hyh⟩ := hp
  obtain ⟨-, hxw, -, -⟩ := hq
  simp only at hx hxw hy hyh
  obtain ⟨i, rfl⟩ := Int.eq_ofNat_of_zero_le hx
  obtain ⟨j, rfl⟩ := Int.eq_ofNat_of_zero_le hy
  refine Finset.mem_union_right _ (Finset.mem_image.mpr ⟨(j, i), ?_, rfl⟩)
  rw [Finset.mem_product, Finset.mem_range, Finset.mem_range]
  omega

theorem mem_edges (hp : Inside width height p) (hq : Inside width height q) (h : Adj p q) :
    s(p, q) ∈ edges width height := by
  obtain ⟨x, y⟩ := p
  obtain ⟨x', y'⟩ := q
  obtain ⟨hy, hx | hx⟩ | ⟨hx, hy | hy⟩ := h
  · obtain rfl : y = y' := hy
    obtain rfl : x' = x + 1 := hx
    exact mem_edges_beside hp hq
  · obtain rfl : y = y' := hy
    obtain rfl : x = x' + 1 := hx
    rw [Sym2.eq_swap]
    exact mem_edges_beside hq hp
  · obtain rfl : x = x' := hx
    obtain rfl : y' = y + 1 := hy
    exact mem_edges_above hp hq
  · obtain rfl : x = x' := hx
    obtain rfl : y = y' + 1 := hy
    rw [Sym2.eq_swap]
    exact mem_edges_above hq hp

theorem card_edges_le (hw : 1 ≤ width) (hh : 1 ≤ height) :
    ((edges width height).card : Int) ≤ width * (height - 1) + height * (width - 1) := by
  have hunion := Finset.card_union_le
    ((Finset.range width.toNat ×ˢ Finset.range (height - 1).toNat).image above)
    ((Finset.range height.toNat ×ˢ Finset.range (width - 1).toNat).image beside)
  have habove := Finset.card_image_le (s := Finset.range width.toNat ×ˢ Finset.range (height - 1).toNat)
    (f := above)
  have hbeside := Finset.card_image_le (s := Finset.range height.toNat ×ˢ Finset.range (width - 1).toNat)
    (f := beside)
  rw [Finset.card_product, Finset.card_range, Finset.card_range] at habove hbeside
  have hle := hunion.trans (Nat.add_le_add habove hbeside)
  have hcast : ((width.toNat * (height - 1).toNat + height.toNat * (width - 1).toNat : Nat) : Int) =
      width * (height - 1) + height * (width - 1) := by
    rw [Int.natCast_add, Int.natCast_mul, Int.natCast_mul, Int.toNat_of_nonneg (by omega),
      Int.toNat_of_nonneg (by omega), Int.toNat_of_nonneg (by omega), Int.toNat_of_nonneg (by omega)]
  rw [← hcast]
  exact_mod_cast hle

/-- Pairs that are all different as unordered pairs. -/
theorem length_le_of_adj (hw : 1 ≤ width) (hh : 1 ≤ height) {pairs : List (Pos × Pos)}
    (hnodup : (pairs.map fun e => s(e.1, e.2)).Nodup)
    (hpairs : ∀ e ∈ pairs, Inside width height e.1 ∧ Inside width height e.2 ∧ Adj e.1 e.2) :
    (pairs.length : Int) ≤ width * (height - 1) + height * (width - 1) := by
  have hsub : (pairs.map fun e => s(e.1, e.2)).toFinset ⊆ edges width height := by
    intro e he
    obtain ⟨⟨p, q⟩, hpair, rfl⟩ := List.mem_map.mp (List.mem_toFinset.mp he)
    obtain ⟨hp, hq, hadj⟩ := hpairs _ hpair
    exact mem_edges hp hq hadj
  have hcard := Finset.card_le_card hsub
  rw [List.toFinset_card_of_nodup hnodup, List.length_map] at hcard
  exact le_trans (by exact_mod_cast hcard) (card_edges_le hw hh)

end OsExercises.Grid
