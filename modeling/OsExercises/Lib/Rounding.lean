import Mathlib.Algebra.Order.Floor.Ring
import Mathlib.Algebra.Order.Archimedean.Basic
import Mathlib.Data.Int.Log
import Mathlib.Tactic.FieldSimp
import Mathlib.Tactic.Linarith

/-!
# Rounding to binary digits

`roundBinary p` rounds to the nearest number with `p + 1` significant binary digits, of two to the one with
an even last digit; there is no bound on the exponent. Rounding keeps a number below `b` exactly if it is at
most the midpoint above `b` (`roundBinary_le_iff`), and in any case below an integer of at most `p + 1` digits
(`roundBinary_le_intCast`).
-/

namespace OsExercises

variable {K : Type*} [Field K] [LinearOrder K] [IsStrictOrderedRing K] [FloorRing K]

/-! ### To integers -/

/-- The nearest integer, of two the even one. -/
def roundHalfEven (y : K) : Int :=
  if Int.fract y < 1 / 2 ∨ Int.fract y = 1 / 2 ∧ Even ⌊y⌋ then ⌊y⌋ else ⌊y⌋ + 1

theorem roundHalfEven_le_iff {y : K} {j : Int} :
    roundHalfEven y ≤ j ↔ y < j + 1 / 2 ∨ y = j + 1 / 2 ∧ Even j := by
  have hy : (⌊y⌋ : K) + Int.fract y = y := Int.floor_add_fract y
  have hfract := Int.fract_lt_one y
  have hnonneg := Int.fract_nonneg y
  rcases lt_trichotomy j ⌊y⌋ with hj | rfl | hj
  · -- `y` is beyond the midpoint
    have hcast : (j : K) + 1 ≤ ⌊y⌋ := by exact_mod_cast hj
    refine iff_of_false ?_ ?_
    · rw [roundHalfEven]
      split_ifs <;> omega
    · rintro (hlt | ⟨heq, -⟩) <;> linarith
  · have hlt : y < ⌊y⌋ + 1 / 2 ↔ Int.fract y < 1 / 2 := by constructor <;> intro h <;> linarith
    have heq : y = ⌊y⌋ + 1 / 2 ↔ Int.fract y = 1 / 2 := by constructor <;> intro h <;> linarith
    rw [hlt, heq, roundHalfEven]
    split_ifs with hdown
    · exact iff_of_true le_rfl hdown
    · exact iff_of_false (by omega) hdown
  · have hcast : (⌊y⌋ : K) + 1 ≤ j := by exact_mod_cast hj
    refine iff_of_true ?_ (Or.inl (by linarith))
    rw [roundHalfEven]
    split_ifs <;> omega

theorem roundHalfEven_neg (y : K) : roundHalfEven (-y) = -roundHalfEven y := by
  refine eq_of_forall_ge_iff fun j => ?_
  have hflip : -roundHalfEven y ≤ j ↔ ¬ roundHalfEven y ≤ -j - 1 := by omega
  have heven : Even (-j - 1) ↔ ¬ Even j := by
    rw [Int.even_sub, even_neg]
    simp
  rw [hflip, roundHalfEven_le_iff, roundHalfEven_le_iff, heven]
  push_cast
  constructor
  · rintro (hlt | ⟨heq, hj⟩) (hlt' | ⟨heq', hj'⟩)
    · linarith
    · linarith
    · linarith
    · exact hj' hj
  · intro hnot
    rcases lt_trichotomy (-y) (j + 1 / 2) with hlt | heq | hgt
    · exact Or.inl hlt
    · refine Or.inr ⟨heq, ?_⟩
      by_contra hj
      exact hnot (Or.inr ⟨by linarith, hj⟩)
    · exact absurd (Or.inl (by linarith)) hnot

theorem roundHalfEven_le_intCast {y : K} {j : Int} (h : y ≤ j) : roundHalfEven y ≤ j :=
  roundHalfEven_le_iff.mpr (Or.inl (by linarith))

theorem intCast_le_roundHalfEven {y : K} {j : Int} (h : (j : K) ≤ y) : j ≤ roundHalfEven y := by
  have hneg : roundHalfEven (-y) ≤ -j := roundHalfEven_le_intCast (by push_cast; linarith)
  rw [roundHalfEven_neg] at hneg
  omega

/-! ### To multiples -/

/-- The nearest multiple of `u`. -/
def roundTo (u x : K) : K := roundHalfEven (x / u) * u

section RoundTo

variable {u x : K} {j : Int}

theorem roundTo_neg (u x : K) : roundTo u (-x) = -roundTo u x := by
  rw [roundTo, roundTo, neg_div, roundHalfEven_neg, Int.cast_neg, neg_mul]

theorem roundTo_le_mul (hu : 0 < u) (h : x ≤ j * u) : roundTo u x ≤ j * u := by
  have hround : roundHalfEven (x / u) ≤ j := roundHalfEven_le_intCast ((div_le_iff₀ hu).mpr h)
  exact mul_le_mul_of_nonneg_right (Int.cast_le.mpr hround) hu.le

theorem mul_le_roundTo (hu : 0 < u) (h : j * u ≤ x) : j * u ≤ roundTo u x := by
  have hround : j ≤ roundHalfEven (x / u) := intCast_le_roundHalfEven ((le_div_iff₀ hu).mpr h)
  exact mul_le_mul_of_nonneg_right (Int.cast_le.mpr hround) hu.le

/-- The midpoint between the largest multiple of `u` below `b` and the next one. -/
def midpointAbove (u b : K) : K := (⌊b / u⌋ + 1 / 2) * u

theorem roundTo_le_iff (hu : 0 < u) {b : K} : roundTo u x ≤ b ↔
    x < midpointAbove u b ∨ x = midpointAbove u b ∧ Even ⌊b / u⌋ := by
  rw [roundTo, ← le_div_iff₀ hu, ← Int.le_floor, roundHalfEven_le_iff, div_lt_iff₀ hu, div_eq_iff hu.ne']
  rfl

end RoundTo

/-! ### To binary digits -/

/-- The value of the last of `p + 1` binary digits. -/
def ulp (p : Nat) (x : K) : K := 2 ^ (Int.log 2 |x| - p)

def roundBinary (p : Nat) (x : K) : K := roundTo (ulp p x) x

section RoundBinary

variable {p : Nat} {x b : K} {e : Int}

theorem ulp_pos : 0 < ulp p x := zpow_pos two_pos _

theorem zpow_log_le (hx : 0 < x) : (2 : K) ^ Int.log 2 x ≤ x := by
  have h := Int.zpow_log_le_self (R := K) Nat.one_lt_two hx
  rwa [Nat.cast_ofNat] at h

theorem lt_zpow_log (x : K) : x < (2 : K) ^ (Int.log 2 x + 1) := by
  have h := Int.lt_zpow_succ_log_self (R := K) Nat.one_lt_two x
  rwa [Nat.cast_ofNat] at h

theorem log_eq (hle : (2 : K) ^ e ≤ x) (hlt : x < (2 : K) ^ (e + 1)) : Int.log 2 x = e := by
  have hx : 0 < x := (zpow_pos two_pos e).trans_le hle
  have hlow : e ≤ Int.log 2 x := (Int.zpow_le_iff_le_log Nat.one_lt_two hx).mp (by rwa [Nat.cast_ofNat])
  have hhigh : Int.log 2 x < e + 1 := (Int.lt_zpow_iff_log_lt Nat.one_lt_two hx).mp (by rwa [Nat.cast_ofNat])
  omega

/-- A power of two with a larger exponent is a multiple. -/
theorem zpow_eq_mul {d : Int} (h : d ≤ e) : (2 : K) ^ e = ((2 ^ (e - d).toNat : Int) : K) * 2 ^ d := by
  have hsplit : e = ((e - d).toNat : Int) + d := by omega
  have htwo : (0 : K) < 2 := two_pos
  nth_rewrite 1 [hsplit]
  rw [zpow_add₀ htwo.ne', zpow_natCast]
  push_cast
  rfl

theorem roundBinary_neg (p : Nat) (x : K) : roundBinary p (-x) = -roundBinary p x := by
  rw [roundBinary, roundBinary, ulp, abs_neg, roundTo_neg]
  rfl

theorem roundTo_le_zpow {d : Int} (hd : d ≤ e) (h : x ≤ 2 ^ e) : roundTo (2 ^ d) x ≤ (2 : K) ^ e := by
  rw [zpow_eq_mul hd] at h ⊢
  exact roundTo_le_mul (zpow_pos two_pos d) h

theorem zpow_le_roundTo {d : Int} (hd : d ≤ e) (h : 2 ^ e ≤ x) : (2 : K) ^ e ≤ roundTo (2 ^ d) x := by
  rw [zpow_eq_mul hd] at h ⊢
  exact mul_le_roundTo (zpow_pos two_pos d) h

theorem roundTo_le_neg_zpow {d : Int} (hd : d ≤ e) (h : x ≤ -2 ^ e) : roundTo (2 ^ d) x ≤ -(2 : K) ^ e := by
  have hneg : (2 : K) ^ e ≤ roundTo (2 ^ d) (-x) := zpow_le_roundTo hd (le_neg.mpr h)
  rwa [roundTo_neg, le_neg] at hneg

theorem neg_zpow_le_roundTo {d : Int} (hd : d ≤ e) (h : -2 ^ e ≤ x) : -(2 : K) ^ e ≤ roundTo (2 ^ d) x := by
  have hneg : roundTo (2 ^ d) (-x) ≤ (2 : K) ^ e := roundTo_le_zpow hd (neg_le.mpr h)
  rwa [roundTo_neg, neg_le] at hneg

theorem roundBinary_nonpos (hx : x ≤ 0) : roundBinary p x ≤ 0 := by
  have h : roundBinary p x ≤ ((0 : Int) : K) * ulp p x := roundTo_le_mul ulp_pos (by simpa using hx)
  simpa using h

theorem roundBinary_le_zpow (h : x ≤ 2 ^ e) : roundBinary p x ≤ 2 ^ e := by
  rcases le_or_gt x 0 with hx | hx
  · exact (roundBinary_nonpos hx).trans (zpow_pos two_pos e).le
  · have hlog : Int.log 2 |x| ≤ e := by
      rw [abs_of_pos hx]
      have hlt : (2 : K) ^ Int.log 2 x ≤ 2 ^ e := (zpow_log_le hx).trans h
      exact (zpow_le_zpow_iff_right₀ one_lt_two).mp hlt
    exact roundTo_le_zpow (by omega) h

theorem zpow_le_roundBinary (h : 2 ^ e ≤ x) : 2 ^ e ≤ roundBinary p x := by
  have hx : 0 < x := (zpow_pos two_pos e).trans_le h
  have hlog : e ≤ Int.log 2 |x| := by
    rw [abs_of_pos hx]
    exact (Int.zpow_le_iff_le_log Nat.one_lt_two hx).mp (by rwa [Nat.cast_ofNat])
  have hself : (2 : K) ^ Int.log 2 |x| ≤ x := by
    rw [abs_of_pos hx]
    exact zpow_log_le hx
  exact (zpow_le_zpow_right₀ one_le_two hlog).trans (zpow_le_roundTo (by omega) hself)

theorem roundBinary_le_neg_zpow (h : x ≤ -2 ^ e) : roundBinary p x ≤ -2 ^ e := by
  have hneg : 2 ^ e ≤ roundBinary p (-x) := zpow_le_roundBinary (le_neg.mpr h)
  rwa [roundBinary_neg, le_neg] at hneg

theorem neg_zpow_le_roundBinary (h : -2 ^ e ≤ x) : -2 ^ e ≤ roundBinary p x := by
  have hneg : roundBinary p (-x) ≤ 2 ^ e := roundBinary_le_zpow (neg_le.mpr h)
  rwa [roundBinary_neg, neg_le] at hneg

theorem roundBinary_eq_roundTo (hle : 2 ^ e ≤ |x|) (hlt : |x| < 2 ^ (e + 1)) :
    roundBinary p x = roundTo (2 ^ (e - p)) x := by
  rw [roundBinary, ulp, log_eq hle hlt]

/-! ### Rounding below a bound -/

/-- The distance from the number of `p + 1` digits below `b` to the next one. -/
def gap (p : Nat) (b : K) : K := if 0 < b then 2 ^ (Int.log 2 b - p) else 2 ^ (Int.clog 2 (-b) - 1 - p)

theorem gap_pos : 0 < gap p b := by
  rw [gap]
  split_ifs <;> exact zpow_pos two_pos _

/-- The numbers whose last digit is not that of the numbers around `b` are on the same side of it. -/
theorem roundBinary_le_iff_roundTo (hb : b ≠ 0) : roundBinary p x ≤ b ↔ roundTo (gap p b) x ≤ b := by
  rcases lt_or_gt_of_ne hb with hb | hb
  · have hlow := Int.zpow_pred_clog_lt_self (R := K) Nat.one_lt_two (neg_pos.mpr hb)
    have hhigh := Int.self_le_zpow_clog (R := K) Nat.one_lt_two (-b)
    rw [gap, if_neg hb.not_gt]
    rw [Nat.cast_ofNat] at hlow hhigh
    rw [← Int.sub_add_cancel (Int.clog 2 (-b)) 1] at hhigh
    generalize Int.clog 2 (-b) - 1 = e at *
    rcases le_or_gt x (-2 ^ (e + 1)) with hx | hx
    · have hle : -2 ^ (e + 1) ≤ b := neg_le.mp hhigh
      exact iff_of_true ((roundBinary_le_neg_zpow hx).trans hle) ((roundTo_le_neg_zpow (by omega) hx).trans hle)
    rcases le_or_gt (-2 ^ e) x with hx' | hx'
    · have hlt : b < -2 ^ e := lt_neg.mp hlow
      exact iff_of_false (hlt.trans_le (neg_zpow_le_roundBinary hx')).not_ge
        (hlt.trans_le (neg_zpow_le_roundTo (by omega) hx')).not_ge
    · have habs : |x| = -x := abs_of_neg (hx'.trans (neg_neg_of_pos (zpow_pos two_pos e)))
      rw [roundBinary_eq_roundTo (by rw [habs]; exact (lt_neg.mp hx').le) (by rw [habs]; exact neg_lt.mp hx)]
  · have hlow := zpow_log_le hb
    have hhigh := lt_zpow_log b
    rw [gap, if_pos hb]
    generalize Int.log 2 b = e at *
    rcases le_or_gt x (2 ^ e) with hx | hx
    · exact iff_of_true ((roundBinary_le_zpow hx).trans hlow) ((roundTo_le_zpow (by omega) hx).trans hlow)
    rcases le_or_gt (2 ^ (e + 1)) x with hx' | hx'
    · exact iff_of_false (hhigh.trans_le (zpow_le_roundBinary hx')).not_ge
        (hhigh.trans_le (zpow_le_roundTo (by omega) hx')).not_ge
    · have habs : |x| = x := abs_of_pos ((zpow_pos two_pos e).trans hx)
      rw [roundBinary_eq_roundTo (by rw [habs]; exact hx.le) (by rwa [habs])]

/-- Not beyond the midpoint above `b`, and at the midpoint only if it is rounded down. -/
def RoundsBelow (p : Nat) (x b : K) : Prop :=
  if b = 0 then x ≤ 0
  else x < midpointAbove (gap p b) b ∨ x = midpointAbove (gap p b) b ∧ Even ⌊b / gap p b⌋

theorem roundBinary_le_iff : roundBinary p x ≤ b ↔ RoundsBelow p x b := by
  rw [RoundsBelow]
  split_ifs with hb
  · rw [hb]
    refine ⟨fun h => ?_, roundBinary_nonpos⟩
    by_contra hx
    have hpos : 0 < roundBinary p x :=
      (zpow_pos two_pos (Int.log 2 x)).trans_le (zpow_le_roundBinary (zpow_log_le (not_le.mp hx)))
    exact hpos.not_ge h
  · rw [roundBinary_le_iff_roundTo hb, roundTo_le_iff gap_pos]

theorem le_roundBinary_iff : b ≤ roundBinary p x ↔ RoundsBelow p (-x) (-b) := by
  rw [← roundBinary_le_iff, roundBinary_neg, neg_le_neg_iff]

theorem roundBinary_le_of_gap_dvd {j : Int} (hb : b ≠ 0) (hj : b = j * gap p b) (h : x ≤ b) :
    roundBinary p x ≤ b := by
  rw [roundBinary_le_iff_roundTo hb]
  rw [hj] at h
  exact (roundTo_le_mul gap_pos h).trans_eq hj.symm

/-- An integer of at most `p + 1` digits is a multiple of the gap. -/
theorem exists_gap_dvd {z : Int} (hz : z ≠ 0) (hlow : -2 ^ (p + 1) ≤ z) (hhigh : z < 2 ^ (p + 1)) :
    ∃ j : Int, (z : K) = j * gap p (z : K) := by
  obtain ⟨d, hd, hgap⟩ : ∃ d : Int, d ≤ 0 ∧ gap p (z : K) = 2 ^ d := by
    rw [gap]
    split_ifs with hpos
    · refine ⟨_, ?_, rfl⟩
      have hlt : (z : K) < ((2 : Nat) : K) ^ ((p : Int) + 1) := by
        rw [Nat.cast_ofNat]
        exact_mod_cast hhigh
      have hlog := (Int.lt_zpow_iff_log_lt Nat.one_lt_two hpos).mp hlt
      omega
    · refine ⟨_, ?_, rfl⟩
      have hneg : (0 : K) < -z := by
        have hz' : z < 0 := lt_of_le_of_ne (not_lt.mp fun h => hpos (by exact_mod_cast h)) hz
        exact_mod_cast neg_pos.mpr hz'
      have hle : -(z : K) ≤ ((2 : Nat) : K) ^ ((p : Int) + 1) := by
        rw [Nat.cast_ofNat]
        exact_mod_cast neg_le.mp hlow
      have hclog := (Int.le_zpow_iff_clog_le Nat.one_lt_two hneg).mp hle
      omega
  refine ⟨z * 2 ^ (-d).toNat, ?_⟩
  have hone := zpow_eq_mul (K := K) hd
  rw [zpow_zero, zero_sub] at hone
  rw [hgap, Int.cast_mul, mul_assoc, ← hone, mul_one]

/-- Rounding does not lead beyond an integer of at most `p + 1` digits. -/
theorem roundBinary_le_intCast {z : Int} (hz : |z| ≤ 2 ^ (p + 1)) (h : x ≤ z) : roundBinary p x ≤ z := by
  obtain ⟨hlow, hhigh⟩ := abs_le.mp hz
  rcases eq_or_ne z 0 with rfl | hne
  · rw [Int.cast_zero] at h ⊢
    exact roundBinary_nonpos h
  rcases hhigh.eq_or_lt with rfl | hhigh
  · have hpow : (((2 : Int) ^ (p + 1) : Int) : K) = 2 ^ ((p : Int) + 1) := by exact_mod_cast rfl
    rw [hpow] at h ⊢
    exact roundBinary_le_zpow h
  · obtain ⟨j, hj⟩ := exists_gap_dvd (K := K) hne hlow hhigh
    exact roundBinary_le_of_gap_dvd (Int.cast_ne_zero.mpr hne) hj h

/-- Neither does it lead a number that is not larger beyond any integer. -/
theorem roundBinary_le_intCast_of_abs_le {z : Int} (hx : |x| ≤ 2 ^ (p + 1)) (h : x ≤ z) :
    roundBinary p x ≤ z := by
  obtain ⟨hlow, hhigh⟩ := abs_le.mp hx
  have hz : |min z (2 ^ (p + 1))| ≤ 2 ^ (p + 1) := by
    have hge : -2 ^ (p + 1) ≤ z := by exact_mod_cast hlow.trans h
    have hpow : (0 : Int) < 2 ^ (p + 1) := by positivity
    exact abs_le.mpr ⟨le_min hge (by omega), min_le_right _ _⟩
  have hmin : x ≤ ((min z (2 ^ (p + 1)) : Int) : K) := by
    rw [Int.cast_min]
    exact le_min h (by exact_mod_cast hhigh)
  exact (roundBinary_le_intCast hz hmin).trans (by exact_mod_cast min_le_left _ _)

theorem intCast_le_roundBinary_of_abs_le {z : Int} (hx : |x| ≤ 2 ^ (p + 1)) (h : (z : K) ≤ x) :
    z ≤ roundBinary p x := by
  have hneg : roundBinary p (-x) ≤ ((-z : Int) : K) :=
    roundBinary_le_intCast_of_abs_le (by rwa [abs_neg]) (by rw [Int.cast_neg]; exact neg_le_neg h)
  rwa [roundBinary_neg, Int.cast_neg, neg_le_neg_iff] at hneg

theorem roundBinary_intCast {z : Int} (hz : |z| ≤ 2 ^ (p + 1)) : roundBinary p (z : K) = z := by
  have habs : |(z : K)| ≤ 2 ^ (p + 1) := by exact_mod_cast hz
  exact le_antisymm (roundBinary_le_intCast_of_abs_le habs le_rfl) (intCast_le_roundBinary_of_abs_le habs le_rfl)

end RoundBinary

end OsExercises
