import OsExercises.SumFile.Pieces

/-!
# The sum of a file

Each line of the file is a number. What the cuts of a line change is known from the length of its last
piece and the place of its sign (`Line.misread`); numbers that are not negative come out too small, the
others too large. So the sum is exact if these amounts cancel out and nothing overflows (`addsUp_iff`),
above all if no line is cut behind its minus sign or among its significant digits (`misread_eq_zero_iff`).
-/

namespace OsExercises.SumFile

/-- A line that holds a decimal `int`. -/
structure Line where
  blanks : Bytes
  numeral : Numeral
  isBlank : ∀ b ∈ blanks, isSpace b = true ∧ b ≠ NEWLINE
  inInt : INT_MIN ≤ numeral.value ∧ numeral.value ≤ INT_MAX

def Line.text (l : Line) : Bytes := l.blanks ++ l.numeral.text

/-- The last line may end with the file. -/
def fileText (terminated : Bool) : List Line → Bytes
  | [] => []
  | [l] => l.text ++ if terminated then [NEWLINE] else []
  | l :: ls => l.text ++ NEWLINE :: fileText terminated ls

def AddsUp (lines : List Line) (terminated : Bool) : Prop :=
  sumFile (fileText terminated lines) = some (lines.map fun l => l.numeral.value).sum

namespace Line

variable (l : Line)

def lastBytes : Nat := lastPiece l.text.length

def readings : List Int := [carried l.numeral l.lastBytes, last l.numeral l.lastBytes]

/-- The number without its sign, before and in the last piece. -/
def quotient : Nat := digitsValue l.numeral.digits / 10 ^ l.lastBytes

def remainder : Nat := digitsValue l.numeral.digits % 10 ^ l.lastBytes

/-- What is missing in the sum because the line is cut. The cases are those of a sign in the last piece, in
the one before it, and further in front. -/
def misread : Int :=
  if l.numeral.sign ≠ .minus then l.quotient * (10 ^ l.lastBytes - 1)
  else if l.numeral.text.length ≤ l.lastBytes then 0
  else if l.numeral.text.length ≤ l.lastBytes + 31 then -(l.quotient * (10 ^ l.lastBytes - 1) + 2 * l.remainder)
  else -(l.quotient * (10 ^ l.lastBytes + 1) + 2 * l.remainder)

end Line

/-! ### One line -/

variable {l : Line} {lines : List Line} {terminated : Bool}

theorem Line.digitsValue_le (l : Line) : digitsValue l.numeral.digits ≤ 2 ^ 31 := by
  have hmin := l.inInt.1
  have hmax := l.inInt.2
  unfold Numeral.value signed INT_MIN INT_MAX at *
  split_ifs at hmin hmax <;> omega

theorem Line.quotient_mul_add (l : Line) :
    l.quotient * 10 ^ l.lastBytes + l.remainder = digitsValue l.numeral.digits :=
  Nat.div_add_mod' ..

theorem Line.eq_quotient (l : Line) :
    (digitsValue l.numeral.digits : Int) = l.quotient * 10 ^ l.lastBytes + l.remainder := by
  exact_mod_cast l.quotient_mul_add.symm

theorem Line.quotient_eq_zero (l : Line) (h : l.numeral.text.length ≤ l.lastBytes) : l.quotient = 0 := by
  have hlength : l.numeral.text.length = l.numeral.sign.text.length + l.numeral.digits.length :=
    List.length_append
  refine Nat.div_eq_of_lt (Nat.lt_of_lt_of_le (digitsValue_lt l.numeral.isDigit) ?_)
  exact Nat.pow_le_pow_right (by omega) (by omega)

theorem Line.quotient_add_remainder_le (l : Line) : l.quotient + l.remainder ≤ digitsValue l.numeral.digits := by
  have heq := l.quotient_mul_add
  have hmul := Nat.le_mul_of_pos_right l.quotient (show 0 < 10 ^ l.lastBytes from Nat.pow_pos (by omega))
  omega

theorem Line.quotient_le (l : Line) : l.quotient < 2 ^ 31 := by
  have hle := l.digitsValue_le
  have hdiv : l.quotient ≤ digitsValue l.numeral.digits / 10 ^ 1 :=
    Nat.div_le_div_left (Nat.pow_le_pow_right (by omega) (Nat.succ_pos _)) (by decide)
  omega

theorem Line.remainder_le (l : Line) : l.remainder ≤ 2 ^ 31 := (Nat.mod_le _ _).trans l.digitsValue_le

/-- `misread` is the difference. -/
theorem Line.sum_readings (l : Line) : l.readings.sum = l.numeral.value - l.misread := by
  have heq := l.eq_quotient
  have hsum : l.readings.sum =
      signed (l.numeral.sign = .minus ∧ l.numeral.text.length ≤ l.lastBytes + 31) l.quotient +
        signed (l.numeral.sign = .minus ∧ l.numeral.text.length ≤ l.lastBytes) l.remainder := by
    rw [readings, List.sum_cons, List.sum_cons, List.sum_nil, Int.add_zero]
    rfl
  rw [hsum, misread, Numeral.value]
  by_cases hminus : l.numeral.sign = .minus
  · simp only [hminus, ne_eq, not_true_eq_false, if_false, true_and, decide_true, signed_true, heq]
    by_cases hin : l.numeral.text.length ≤ l.lastBytes
    · have hbeside : l.numeral.text.length ≤ l.lastBytes + 31 := by omega
      have hquotient : l.quotient = 0 := l.quotient_eq_zero hin
      simp only [hin, hbeside, hquotient, decide_true, signed_true, if_true]
      simp
    · by_cases hbeside : l.numeral.text.length ≤ l.lastBytes + 31
      · simp only [hin, hbeside, decide_true, decide_false, signed_true, signed_false, if_true, if_false,
          Int.mul_sub, Int.mul_one]
        omega
      · simp only [hin, hbeside, decide_false, signed_false, if_false, Int.mul_add, Int.mul_one]
        omega
  · simp only [hminus, ne_eq, not_false_eq_true, if_true, false_and, decide_false, signed_false, heq, Int.mul_sub,
      Int.mul_one]
    omega

/-! ### When nothing is missing -/

namespace Line

variable {l : Line}

theorem one_lt_pow (l : Line) : (1 : Int) < 10 ^ l.lastBytes := by
  have hpos : l.lastBytes ≠ 0 := Nat.succ_ne_zero _
  exact one_lt_pow₀ (by decide) hpos

/-- Nothing is missing of 0, of a negative number in one piece with its sign, and of any other whose
significant digits are in one piece. -/
theorem misread_eq_zero_iff : l.misread = 0 ↔ l.numeral.value = 0 ∨
    if l.numeral.sign = .minus then l.numeral.text.length ≤ l.lastBytes
    else digitsValue l.numeral.digits < 10 ^ l.lastBytes := by
  have hpow := l.one_lt_pow
  have heq := l.eq_quotient
  have hproduct : ∀ k : Int, 0 < k → ((l.quotient : Int) * k = 0 ↔ l.quotient = 0) := by
    intro k hk
    rw [Int.mul_eq_zero]
    omega
  have hnonneg : ∀ k : Int, 0 < k → 0 ≤ (l.quotient : Int) * k := fun k hk =>
    Int.mul_nonneg (Int.natCast_nonneg _) (Int.le_of_lt hk)
  have hvalue : l.numeral.value = 0 ↔ l.quotient = 0 ∧ l.remainder = 0 := by
    have hquotient := hproduct (10 ^ l.lastBytes) (by omega)
    have hpos := hnonneg (10 ^ l.lastBytes) (by omega)
    rw [Numeral.value]
    cases decide (l.numeral.sign = .minus) with
    | false => rw [signed_false]; omega
    | true => rw [signed_true]; omega
  have hdigits : digitsValue l.numeral.digits < 10 ^ l.lastBytes ↔ l.quotient = 0 :=
    (Nat.div_eq_zero_iff_lt (Nat.pow_pos (by omega))).symm
  rw [misread, hvalue, hdigits]
  by_cases hminus : l.numeral.sign = .minus
  · rw [if_neg (not_not.mpr hminus), if_pos hminus]
    have hless := hproduct (10 ^ l.lastBytes - 1) (by omega)
    have hless' := hnonneg (10 ^ l.lastBytes - 1) (by omega)
    have hmore := hproduct (10 ^ l.lastBytes + 1) (by omega)
    have hmore' := hnonneg (10 ^ l.lastBytes + 1) (by omega)
    split_ifs with hin hbeside
    · exact iff_of_true rfl (Or.inr hin)
    · omega
    · omega
  · rw [if_pos hminus, if_neg hminus, hproduct _ (by omega)]
    exact ⟨Or.inr, fun h => h.elim And.left id⟩

/-- A piece is an `int`, unless it is `2147483648` without its sign. -/
theorem readings_inInt_iff : (∀ v ∈ l.readings, INT_MIN ≤ v ∧ v ≤ INT_MAX) ↔
    ¬ (l.numeral.sign = .minus ∧ l.lastBytes < l.numeral.text.length ∧ l.remainder = 2 ^ 31) := by
  have hquotient := l.quotient_le
  have hremainder := l.remainder_le
  have hmax := l.inInt.2
  have hcarried : ∀ b, INT_MIN ≤ signed b l.quotient ∧ signed b l.quotient ≤ INT_MAX := by
    intro b
    unfold INT_MIN INT_MAX
    cases b with
    | false => rw [signed_false]; omega
    | true => rw [signed_true]; omega
  have hlast : (∀ v ∈ l.readings, INT_MIN ≤ v ∧ v ≤ INT_MAX) ↔
      INT_MIN ≤ signed (l.numeral.sign = .minus ∧ l.numeral.text.length ≤ l.lastBytes) l.remainder ∧
        signed (l.numeral.sign = .minus ∧ l.numeral.text.length ≤ l.lastBytes) l.remainder ≤ INT_MAX := by
    rw [readings, List.forall_mem_cons, List.forall_mem_singleton]
    exact and_iff_right (hcarried _)
  rw [hlast]
  unfold INT_MIN INT_MAX at *
  by_cases hminus : l.numeral.sign = .minus
  · by_cases hin : l.numeral.text.length ≤ l.lastBytes
    · rw [decide_eq_true ⟨hminus, hin⟩, signed_true]
      omega
    · rw [decide_eq_false fun h => hin h.2, signed_false]
      simp only [hminus, true_and]
      omega
  · have hvalue : l.numeral.value = digitsValue l.numeral.digits := by
      rw [Numeral.value, decide_eq_false hminus, signed_false]
    have hmod : l.remainder ≤ digitsValue l.numeral.digits := Nat.mod_le _ _
    rw [decide_eq_false fun h => hminus h.1, signed_false]
    simp only [hminus, false_and, not_false_eq_true, iff_true]
    omega

end Line

/-! ### All lines -/

theorem fileText_cons (l : Line) (lines : List Line) (terminated : Bool) :
    ∃ z, fileText terminated (l :: lines) = l.text ++ z ∧ Ends z ∧ z.tail = fileText terminated lines := by
  cases lines with
  | nil =>
    cases terminated with
    | false => exact ⟨[], rfl, fun b hb => absurd hb (Option.not_mem_none b), rfl⟩
    | true => exact ⟨[NEWLINE], rfl, fun b hb => (Option.mem_some.mp hb).symm, rfl⟩
  | cons l' ls => exact ⟨_, rfl, fun b hb => (Option.mem_some.mp hb).symm, rfl⟩

theorem values_fileText : values (fileText terminated lines) = nonzero (lines.flatMap Line.readings) := by
  induction lines with
  | nil => exact values_nil
  | cons l lines ih =>
    obtain ⟨z, htext, hz, htail⟩ := fileText_cons l lines terminated
    have hv : digitsValue l.numeral.digits < 10 ^ 31 := l.digitsValue_le.trans_lt (by decide)
    rw [htext, Line.text, values_text l.isBlank hz hv, htail, ih, List.flatMap_cons, nonzero_append]
    rfl

theorem sumFile_fileText : sumFile (fileText terminated lines) = addAll? 0 (lines.flatMap Line.readings) := by
  have hvalues : addAll? 0 (values (fileText terminated lines)) =
      addAll? 0 ((pieces 30 (fileText terminated lines)).map reading) := addAll?_filter inLongLong_zero
  rw [sumFile_eq, ← hvalues, values_fileText, nonzero, addAll?_filter inLongLong_zero]

theorem sum_readings : (lines.flatMap Line.readings).sum =
    (lines.map fun l => l.numeral.value).sum - (lines.map Line.misread).sum := by
  induction lines with
  | nil => rfl
  | cons l lines ih =>
    rw [List.flatMap_cons, List.sum_append, ih, l.sum_readings, List.map_cons, List.map_cons, List.sum_cons,
      List.sum_cons]
    omega

theorem natAbs_sum_le {vs vs' : List Int} (h : vs' <+: vs) : vs'.sum.natAbs ≤ (vs.map Int.natAbs).sum := by
  induction vs' generalizing vs with
  | nil => exact Nat.zero_le _
  | cons v vs' ih =>
    obtain ⟨rest, rfl⟩ := h
    have hrest := ih (List.prefix_append vs' rest)
    have habs := Int.natAbs_add_le v vs'.sum
    rw [List.cons_append, List.map_cons, List.sum_cons, List.sum_cons]
    omega

theorem sum_natAbs_readings_le : ((lines.flatMap Line.readings).map Int.natAbs).sum ≤ 2 ^ 31 * lines.length := by
  induction lines with
  | nil => exact Nat.zero_le _
  | cons l lines ih =>
    have habs : ∀ b n, (signed b n).natAbs = n := by
      intro b n
      cases b with
      | false => exact Int.natAbs_natCast n
      | true => exact (Int.natAbs_neg n).trans (Int.natAbs_natCast n)
    have hline : (l.readings.map Int.natAbs).sum = l.quotient + l.remainder := by
      rw [Line.readings, List.map_cons, List.map_singleton, List.sum_cons, List.sum_singleton, carried, last, habs,
        habs]
      rfl
    have hle := l.quotient_add_remainder_le.trans l.digitsValue_le
    rw [List.flatMap_cons, List.map_append, List.sum_append, hline, List.length_cons]
    omega

/-- Only files of 2³² lines or more can overflow the total. -/
theorem boundedFrom_readings (hlength : lines.length < 2 ^ 32)
    (hints : ∀ l ∈ lines, ∀ v ∈ l.readings, INT_MIN ≤ v ∧ v ≤ INT_MAX) :
    BoundedFrom 0 (lines.flatMap Line.readings) := by
  refine ⟨fun v hv => ?_, fun vs' hvs' => ?_⟩
  · obtain ⟨l, hl, hv⟩ := List.mem_flatMap.mp hv
    exact hints l hl v hv
  · have hsum := (natAbs_sum_le hvs').trans sum_natAbs_readings_le
    unfold InLongLong LLONG_MIN LLONG_MAX
    omega

/-- The sum is exact if what the cuts change cancels out and nothing overflows. -/
theorem addsUp_iff (lines : List Line) (terminated : Bool) : AddsUp lines terminated ↔
    BoundedFrom 0 (lines.flatMap Line.readings) ∧ (lines.map Line.misread).sum = 0 := by
  rw [AddsUp, sumFile_fileText, addAll?_eq_some inLongLong_zero, sum_readings]
  exact and_congr_right fun _ => ⟨fun h => by omega, fun h => by omega⟩

/-- A 12 whose second digit is the first byte behind the first piece. -/
def cutLine : Line where
  blanks := List.replicate 30 SPACE
  numeral := ⟨.none, [digit 1, digit 2], List.cons_ne_nil _ _,
    List.forall_mem_cons.mpr ⟨rfl, List.forall_mem_singleton.mpr rfl⟩⟩
  isBlank := fun _ hb => List.eq_of_mem_replicate hb ▸ ⟨rfl, by decide⟩
  inInt := by decide

theorem not_addsUp_cutLine : ¬ AddsUp [cutLine] true := by
  have hsum : sumFile (fileText true [cutLine]) = some 3 := by
    rw [sumFile_fileText]
    decide
  intro h
  have htwelve : some 3 = some (12 : Int) := hsum.symm.trans h
  exact absurd (Option.some.inj htwelve) (by decide)

end OsExercises.SumFile
