import Mathlib.Algebra.Order.BigOperators.Group.List
import Mathlib.Data.Rat.Floor
import OsExercises.Lib.Rounding
import OsExercises.Scheduler.Statistics

/-!
# Two ways to count tokens

`token_count` of `src/exercise05/task_1/scheduler.c` counts the separators, `strtok_r` skips runs of them,
and what is printed mixes the two numbers: they agree only on a well spaced text. The mean is a quotient of
two rounded numbers and is rounded itself, so that it need not lie between the integers whose mean it is
(`countsAgree_iff`); it does if their sum has no more than 24 binary digits (`keepsMean_of_abs_sum_le`).
-/

namespace OsExercises.Scheduler

variable {str rest msgBuf : Bytes} {sleeps : Nat → Bool} {vals : List Int}

/-- What the calls of `strtok_r` return, up to `NULL`. -/
def tokens? (msgBuf : Bytes) : Option (List Bytes) :=
  match tokenLoop () SPACE (fun tokens token => .ok (tokens ++ [token])) (msgBuf.length + 1) [] msgBuf with
  | .error _ => none
  | .ok r => some r.1

/-- The conversion to `float`, which has 24 binary digits; the exponents of what is converted here are all
in its range. -/
def toFloat (x : ℚ) : ℚ := roundBinary 23 x

namespace Report

/-- The percentages that are printed. -/
def progress (r : Report) : List Nat :=
  (List.range r.stats.count).map fun k => 100 * (k + 1) / r.tokenAmount

/-- `(float)sum / (float)token_amount` -/
def mean (r : Report) : ℚ := toFloat (toFloat r.stats.sum / toFloat r.tokenAmount)

end Report

/-- What is printed fits the integers that were added up. -/
structure Consistent (r : Report) : Prop where
  divisor : r.tokenAmount = r.stats.count
  min_le : r.stats.min ≤ r.mean
  le_max : r.mean ≤ r.stats.max
  progress : r.progress.getLast? = some 100

/-- Both counts of the text `str` are the same, whatever stands behind it in the buffer. -/
structure CountsAgree (str : Bytes) : Prop where
  tokens : ∀ rest, ∃ tokens, tokens? (str ++ NUL :: rest) = some tokens ∧ tokenCount str = tokens.length
  reports : ∀ sleeps rest r, process sleeps (str ++ NUL :: rest) = .ok r → Consistent r.1

theorem tokens?_eq (hstr : NUL ∉ str) : tokens? (str ++ NUL :: rest) = some (words SPACE str) := by
  have hspace : SPACE ≠ NUL := by decide
  have hfuel : str.length < (str ++ NUL :: rest).length + 1 := by
    rw [List.length_append]
    omega
  have hcollect : ∀ ws tokens : List Bytes,
      ws.foldlM (fun tokens token => (.ok (tokens ++ [token]) : Except Unit (List Bytes))) tokens =
        .ok (tokens ++ ws) := by
    intro ws
    induction ws with
    | nil => intro tokens; simp [pure, Except.pure]
    | cons w ws ih =>
      intro tokens
      rw [List.foldlM_cons]
      show List.foldlM _ (tokens ++ [w]) ws = _
      rw [ih, List.append_assoc, List.singleton_append]
  rw [tokens?, tokenLoop_eq hspace hstr _ hfuel, hcollect]
  rfl

theorem tokenCount_eq_iff : tokenCount str = (words SPACE str).length ↔ WellSpaced SPACE str := by
  rw [← forall_mem_splitOn_iff, ← length_words_eq_iff, tokenCount, Nat.add_comm, eq_comm]

/-! ### The report -/

theorem statsOf_bounds : ∀ a ∈ vals, (statsOf vals).min ≤ a ∧ a ≤ (statsOf vals).max := by
  induction vals using List.reverseRecOn with
  | nil => exact List.forall_mem_nil _
  | append_singleton vals v ih =>
    have hmin : (statsOf (vals ++ [v])).min = min (statsOf vals).min v := by simp [statsOf]
    have hmax : (statsOf (vals ++ [v])).max = max (statsOf vals).max v := by simp [statsOf]
    intro a ha
    rw [hmin, hmax]
    rcases List.mem_append.mp ha with ha | ha
    · have hold := ih a ha
      exact ⟨(min_le_left _ _).trans hold.1, hold.2.trans (le_max_left _ _)⟩
    · obtain rfl := List.mem_singleton.mp ha
      exact ⟨min_le_right _ _, le_max_right _ _⟩

/-- The mean of the integers before it is rounded; the sum and the number have been. -/
def quotient (vals : List Int) : ℚ := toFloat vals.sum / toFloat vals.length

/-- The quotient does not get beyond the midpoints above the maximum and below the minimum. -/
def KeepsMean (vals : List Int) : Prop :=
  RoundsBelow 23 (quotient vals) (statsOf vals).max ∧ RoundsBelow 23 (-quotient vals) (-(statsOf vals).min)

theorem keepsMean_iff : KeepsMean vals ↔
    (statsOf vals).min ≤ (Report.mean ⟨statsOf vals, vals.length⟩) ∧
      Report.mean ⟨statsOf vals, vals.length⟩ ≤ (statsOf vals).max := by
  rw [and_comm, Report.mean, toFloat, roundBinary_le_iff, le_roundBinary_iff]
  rfl

theorem mean_bounds (hvals : vals ≠ []) :
    ((statsOf vals).min : ℚ) ≤ vals.sum / vals.length ∧ (vals.sum : ℚ) / vals.length ≤ (statsOf vals).max := by
  have hcast : (0 : ℚ) < vals.length := by exact_mod_cast List.length_pos_iff.mpr hvals
  constructor
  · have hsum := vals.card_nsmul_le_sum (statsOf vals).min fun a ha => (statsOf_bounds a ha).1
    rw [nsmul_eq_mul, mul_comm] at hsum
    rw [le_div_iff₀ hcast]
    exact_mod_cast hsum
  · have hsum := vals.sum_le_card_nsmul (statsOf vals).max fun a ha => (statsOf_bounds a ha).2
    rw [nsmul_eq_mul, mul_comm] at hsum
    rw [div_le_iff₀ hcast]
    exact_mod_cast hsum

/-- Small sums are not rounded. -/
theorem keepsMean_of_abs_sum_le (hvals : vals ≠ []) (hlength : vals.length ≤ 2 ^ 24)
    (hsum : |vals.sum| ≤ 2 ^ 24) : KeepsMean vals := by
  have hone : (1 : ℚ) ≤ vals.length := by exact_mod_cast List.length_pos_iff.mpr hvals
  have hquotient : quotient vals = vals.sum / vals.length := by
    have hnumerator : toFloat vals.sum = vals.sum := roundBinary_intCast hsum
    have hdenominator : toFloat ((vals.length : Int) : ℚ) = ((vals.length : Int) : ℚ) :=
      roundBinary_intCast (by rw [Nat.abs_cast]; exact_mod_cast hlength)
    rw [Int.cast_natCast] at hdenominator
    rw [quotient, hnumerator, hdenominator]
  have habs : |quotient vals| ≤ 2 ^ (23 + 1) := by
    rw [hquotient, abs_div, Nat.abs_cast]
    exact (div_le_self (abs_nonneg _) hone).trans (by exact_mod_cast hsum)
  obtain ⟨hmin, hmax⟩ := mean_bounds hvals
  rw [← hquotient] at hmin hmax
  exact keepsMean_iff.mpr
    ⟨intCast_le_roundBinary_of_abs_le habs hmin, roundBinary_le_intCast_of_abs_le habs hmax⟩

-- With one digit more than a `float` has, the mean is below the only integer.
example : Report.mean ⟨statsOf [16777217], 1⟩ = 16777216 := by decide +kernel

theorem getLast?_progress (hvals : vals ≠ []) :
    (Report.progress ⟨statsOf vals, vals.length⟩).getLast? = some 100 := by
  obtain ⟨n, hn⟩ := Nat.exists_eq_add_of_lt (List.length_pos_iff.mpr hvals)
  show ((List.range vals.length).map fun k => 100 * (k + 1) / vals.length).getLast? = some 100
  rw [List.getLast?_map, hn, Nat.zero_add, List.range_succ, List.getLast?_concat, Option.map_some]
  exact congrArg some (Nat.mul_div_cancel 100 (Nat.succ_pos n))

end OsExercises.Scheduler
