import OsExercises.SumFile.Model

/-!
# Numbers that are cut

A line of more than 31 bytes comes in several pieces, and `sum_file` adds up what stands at the front of
each. An `int` has at most ten significant digits, so only the last cut can divide them: what the line
adds is given by the bytes `r` of its last piece, as the quotient and the remainder of the number by
`10 ^ r`. A minus sign counts only for the digits in its own piece (`values_text`).
-/

namespace OsExercises.SumFile

/-- The bytes in the last piece of a line of `k` bytes. -/
def lastPiece (k : Nat) : Nat := (k - 1) % 31 + 1

/-- What is read of a number before the last `r` bytes of its line. -/
def carried (n : Numeral) (r : Nat) : Int :=
  signed (n.sign = .minus ∧ n.text.length ≤ r + 31) (digitsValue n.digits / 10 ^ r)

/-- What is read in the last `r` bytes. -/
def last (n : Numeral) (r : Nat) : Int :=
  signed (n.sign = .minus ∧ n.text.length ≤ r) (digitsValue n.digits % 10 ^ r)

/-! ### The numbers of the pieces -/

def nonzero (vs : List Int) : List Int := vs.filter (· ≠ 0)

def values (file : Bytes) : List Int := nonzero ((pieces 30 file).map reading)

variable {w z ds blanks : Bytes} {n : Numeral} {v : Int} {vs : List Int}

theorem nonzero_append (vs us : List Int) : nonzero (vs ++ us) = nonzero vs ++ nonzero us :=
  List.filter_append ..

theorem nonzero_zero_cons : nonzero (0 :: vs) = nonzero vs := rfl

theorem nonzero_cons : nonzero (v :: vs) = nonzero [v] ++ nonzero vs := nonzero_append [v] vs

theorem takeWhile_isDigit_newline (s : Bytes) : (s ++ [NEWLINE]).takeWhile isDigit = s.takeWhile isDigit := by
  induction s with
  | nil => rfl
  | cons b s ih => rw [List.cons_append, List.takeWhile_cons, List.takeWhile_cons, ih]

theorem reading_newline (s : Bytes) : reading (s ++ [NEWLINE]) = reading s := by
  have hdrop : (s ++ [NEWLINE]).dropWhile isSpace = if (s.dropWhile isSpace).isEmpty then
      [NEWLINE].dropWhile isSpace else s.dropWhile isSpace ++ [NEWLINE] := List.dropWhile_append
  cases hnumber : s.dropWhile isSpace with
  | nil =>
    rw [hnumber] at hdrop
    simp only [reading, hdrop, hnumber]
    rfl
  | cons b number =>
    rw [hnumber] at hdrop
    have hnewline : (s ++ [NEWLINE]).dropWhile isSpace = b :: number ++ [NEWLINE] := hdrop
    simp only [reading, hnewline, hnumber, List.cons_append, List.head?_cons, List.tail_cons]
    split_ifs
    · rw [takeWhile_isDigit_newline]
    · rw [← List.cons_append, takeWhile_isDigit_newline]

theorem values_nil : values [] = [] := by
  rw [values, pieces_nil]
  rfl

theorem values_of_le (hw : NEWLINE ∉ w) (h : 31 ≤ w.length) :
    values (w ++ z) = nonzero [reading (w.take 31)] ++ values (w.drop 31 ++ z) := by
  rw [values, pieces_of_le hw h, List.map_cons, nonzero_cons, values]

theorem values_of_lt (hw : NEWLINE ∉ w) (hz : Ends z) (h : w.length < 31) :
    values (w ++ z) = nonzero [reading w] ++ values z.tail := by
  by_cases hnil : w ++ z = []
  · obtain ⟨rfl, rfl⟩ := List.append_eq_nil_iff.mp hnil
    rw [List.append_nil, List.tail_nil, values_nil]
    rfl
  · have hreading : reading (w ++ z.take 1) = reading w := by
      cases z with
      | nil => rw [List.take_nil, List.append_nil]
      | cons b z =>
        obtain rfl : b = NEWLINE := hz b rfl
        exact reading_newline w
    rw [values, pieces_of_lt hw hz hnil h, List.map_cons, nonzero_cons, hreading, values]

/-- A line that ends with a piece has another one, with nothing but the newline. -/
theorem values_of_le_piece (hw : NEWLINE ∉ w) (hz : Ends z) (h : w.length ≤ 31) :
    values (w ++ z) = nonzero [reading w] ++ values z.tail := by
  rcases Nat.lt_or_ge w.length 31 with hlt | hge
  · exact values_of_lt hw hz hlt
  · rw [values_of_le hw hge, List.take_of_length_le h, List.drop_of_length_le h,
      values_of_lt List.not_mem_nil hz (by decide)]
    rfl

/-! ### Digits alone -/

theorem lastPiece_of_le {k : Nat} (h0 : 0 < k) (h : k ≤ 31) : lastPiece k = k := by
  unfold lastPiece
  omega

theorem lastPiece_of_lt {k : Nat} (h : 31 < k) : lastPiece k = lastPiece (k - 31) := by
  unfold lastPiece
  omega

theorem lastPiece_le {k : Nat} (h : 31 < k) : lastPiece k ≤ k - 31 := by
  unfold lastPiece
  omega

theorem newline_notMem_digits (hds : ∀ d ∈ ds, isDigit d = true) : NEWLINE ∉ ds := fun hmem => by
  cases hds NEWLINE hmem

theorem reading_digits (hds : ∀ d ∈ ds, isDigit d = true) : reading ds = digitsValue ds := by
  have hreading : reading (Sign.none.text ++ ds) = digitsValue ds := Numeral.reading_sign_digits hds
  exact hreading

/-- The number before and behind a place in it. -/
theorem digitsValue_split (hds : ∀ d ∈ ds, isDigit d = true) (k : Nat) :
    digitsValue (ds.take k) = digitsValue ds / 10 ^ (ds.length - k) ∧
      digitsValue (ds.drop k) = digitsValue ds % 10 ^ (ds.length - k) := by
  have hlt : digitsValue (ds.drop k) < 10 ^ (ds.length - k) := by
    rw [← List.length_drop]
    exact digitsValue_lt fun d hd => hds d (List.mem_of_mem_drop hd)
  have heq : digitsValue (ds.drop k) + 10 ^ (ds.length - k) * digitsValue (ds.take k) = digitsValue ds := by
    have happend := digitsValue_append (a := ds.take k) (b := ds.drop k)
    rw [List.take_append_drop, List.length_drop] at happend
    rw [happend, Nat.add_comm, Nat.mul_comm]
  obtain ⟨hdiv, hmod⟩ := (Nat.div_mod_unique (Nat.pow_pos (by omega))).mpr ⟨heq, hlt⟩
  exact ⟨hdiv.symm, hmod.symm⟩

/-- A number without a sign, of which only the last cut divides the significant digits. -/
theorem values_digits (hds : ∀ d ∈ ds, isDigit d = true) (hz : Ends z) (hv : digitsValue ds < 10 ^ 31) :
    values (ds ++ z) = nonzero [(digitsValue ds / 10 ^ lastPiece ds.length : Nat),
      (digitsValue ds % 10 ^ lastPiece ds.length : Nat)] ++ values z.tail := by
  induction hk : ds.length using Nat.strong_induction_on generalizing ds with
  | _ k ih =>
  subst hk
  rcases Nat.lt_or_ge 31 ds.length with hlong | hshort
  · have hrest : (ds.drop 31).length = ds.length - 31 := List.length_drop
    obtain ⟨hbefore, hbehind⟩ := digitsValue_split hds 31
    have hle := Nat.mod_le (digitsValue ds) (10 ^ (ds.length - 31))
    have hih := ih (ds.length - 31) (by omega) (fun d hd => hds d (List.mem_of_mem_drop hd)) (by omega) hrest
    rw [values_of_le (newline_notMem_digits hds) (Nat.le_of_lt hlong), hih,
      reading_digits fun d hd => hds d (List.mem_of_mem_take hd), hbefore, hbehind, ← lastPiece_of_lt hlong,
      ← List.append_assoc]
    congr 1
    rcases Nat.lt_or_ge 31 (ds.length - 31) with hlonger | hone
    · -- The first piece is all zeros.
      have hsmall : digitsValue ds < 10 ^ (ds.length - 31) :=
        Nat.lt_of_lt_of_le hv (Nat.pow_le_pow_right (by omega) (Nat.le_of_lt hlonger))
      rw [Nat.div_eq_of_lt hsmall, Nat.mod_eq_of_lt hsmall]
      rfl
    · have hlast : lastPiece ds.length = ds.length - 31 := by
        rw [lastPiece_of_lt hlong, lastPiece_of_le (by omega) hone]
      have hsmall : digitsValue ds % 10 ^ (ds.length - 31) < 10 ^ (ds.length - 31) :=
        Nat.mod_lt _ (Nat.pow_pos (by omega))
      rw [hlast, Nat.div_eq_of_lt hsmall, Nat.mod_mod]
      exact (nonzero_append ..).symm
  · have hlt : digitsValue ds < 10 ^ lastPiece ds.length := by
      refine Nat.lt_of_lt_of_le (digitsValue_lt hds) (Nat.pow_le_pow_right (by omega) ?_)
      unfold lastPiece
      omega
    rw [values_of_le_piece (newline_notMem_digits hds) hz hshort, reading_digits hds, Nat.div_eq_of_lt hlt,
      Nat.mod_eq_of_lt hlt]
    rfl

/-! ### A line -/

/-- The first piece of a long line, if there are fewer blanks than it has bytes. -/
theorem take_drop_text (hfew : blanks.length < 31) :
    (blanks ++ n.text).take 31 = blanks ++ (n.sign.text ++ n.digits.take (31 - blanks.length - n.sign.text.length)) ∧
      (blanks ++ n.text).drop 31 = n.digits.drop (31 - blanks.length - n.sign.text.length) := by
  have hsign : n.sign.text.length ≤ 1 := by
    cases n.sign <;> decide
  constructor
  · rw [List.take_append, List.take_of_length_le (Nat.le_of_lt hfew), Numeral.text, List.take_append,
      List.take_of_length_le (show n.sign.text.length ≤ 31 - blanks.length by omega)]
  · rw [List.drop_append, List.drop_of_length_le (Nat.le_of_lt hfew), Numeral.text, List.drop_append,
      List.drop_of_length_le (show n.sign.text.length ≤ 31 - blanks.length by omega)]
    rfl

/-- The pieces behind the one with the sign have `k` digits. -/
theorem nonzero_cut {k : Nat} (hk : 0 < k) (hv : digitsValue n.digits < 10 ^ 31) (hle : k ≤ n.digits.length)
    (hfirst : n.text.length ≤ k + 31) :
    nonzero [signed (n.sign = .minus) (digitsValue n.digits / 10 ^ k)] ++
        nonzero [(digitsValue n.digits % 10 ^ k / 10 ^ lastPiece k : Nat),
          (digitsValue n.digits % 10 ^ k % 10 ^ lastPiece k : Nat)] =
      nonzero [carried n (lastPiece k), last n (lastPiece k)] := by
  have hsign : ∀ r, r ≤ n.digits.length → ¬ (n.sign = .minus ∧ n.text.length ≤ r) := by
    rintro r hr ⟨hminus, htext⟩
    have hlength : n.text.length = n.sign.text.length + n.digits.length := List.length_append
    rw [hminus, show Sign.minus.text.length = 1 from rfl] at hlength
    omega
  rcases Nat.lt_or_ge 31 k with hlong | hshort
  · -- Only zeros stand beside the sign.
    have hsmall : digitsValue n.digits < 10 ^ k :=
      Nat.lt_of_lt_of_le hv (Nat.pow_le_pow_right (by omega) (Nat.le_of_lt hlong))
    have hlast := lastPiece_le hlong
    rw [Nat.div_eq_of_lt hsmall, Nat.mod_eq_of_lt hsmall, signed_zero, carried, last,
      decide_eq_false (hsign _ (by omega)), decide_eq_false (hsign _ (by omega))]
    rfl
  · have hsmall : digitsValue n.digits % 10 ^ k < 10 ^ k := Nat.mod_lt _ (Nat.pow_pos (by omega))
    rw [lastPiece_of_le hk hshort, Nat.div_eq_of_lt hsmall, Nat.mod_mod, carried, last,
      decide_eq_false (hsign k hle)]
    simp only [hfirst, and_true]
    exact (nonzero_append ..).symm

/-- The first piece with digits has the sign, if the sign is not the last byte of the piece before. -/
theorem values_text (hblanks : ∀ b ∈ blanks, isSpace b = true ∧ b ≠ NEWLINE) (hz : Ends z)
    (hv : digitsValue n.digits < 10 ^ 31) : values (blanks ++ n.text ++ z) =
      nonzero [carried n (lastPiece (blanks ++ n.text).length), last n (lastPiece (blanks ++ n.text).length)] ++
        values z.tail := by
  have hnewline : NEWLINE ∉ blanks ++ n.text := by
    refine List.not_mem_append (fun hmem => (hblanks NEWLINE hmem).2 rfl) ?_
    exact Numeral.notMem_text (by decide) (by decide) rfl
  induction hk : blanks.length using Nat.strong_induction_on generalizing blanks with
  | _ k ih =>
  subst hk
  have hlength : (blanks ++ n.text).length = blanks.length + n.text.length := List.length_append
  have htext : n.text.length = n.sign.text.length + n.digits.length := List.length_append
  have hdigits : 0 < n.digits.length := List.length_pos_iff.mpr n.digits_ne_nil
  have hspace : ∀ b ∈ blanks, isSpace b = true := fun b hb => (hblanks b hb).1
  rcases Nat.lt_or_ge blanks.length 31 with hfew | hmany
  · rcases Nat.lt_or_ge 31 (blanks ++ n.text).length with hlong | hshort
    · obtain ⟨htake, hdrop⟩ := take_drop_text (n := n) hfew
      have hsign : n.sign.text.length ≤ 1 := by
        cases n.sign <;> decide
      obtain ⟨c, hc⟩ : ∃ c, c = 31 - blanks.length - n.sign.text.length := ⟨_, rfl⟩
      rw [← hc] at htake hdrop
      obtain ⟨hbefore, hbehind⟩ := digitsValue_split n.isDigit c
      have hreading : reading (blanks ++ (n.sign.text ++ n.digits.take c)) =
          signed (n.sign = .minus) (digitsValue n.digits / 10 ^ (n.digits.length - c)) := by
        rw [reading_blanks hspace, Numeral.reading_sign_digits fun d hd => n.isDigit d (List.mem_of_mem_take hd),
          hbefore]
      have hlast : lastPiece (blanks ++ n.text).length = lastPiece (n.digits.length - c) := by
        rw [lastPiece_of_lt hlong]
        congr 1
        omega
      have hdigits' : ∀ d ∈ n.digits.drop c, isDigit d = true := fun d hd => n.isDigit d (List.mem_of_mem_drop hd)
      have hrest := values_digits hdigits' hz (by rw [hbehind]; exact (Nat.mod_le _ _).trans_lt hv)
      rw [List.length_drop, hbehind] at hrest
      rw [values_of_le hnewline (Nat.le_of_lt hlong), htake, hdrop, hreading, hrest, hlast, ← List.append_assoc,
        nonzero_cut (by omega) hv (by omega) (by omega)]
    · have hlt : digitsValue n.digits < 10 ^ lastPiece (blanks ++ n.text).length := by
        refine Nat.lt_of_lt_of_le (digitsValue_lt n.isDigit) (Nat.pow_le_pow_right (by omega) ?_)
        rw [lastPiece_of_le (by omega) hshort]
        omega
      have hin : n.text.length ≤ lastPiece (blanks ++ n.text).length := by
        rw [lastPiece_of_le (by omega) hshort]
        omega
      have hreading : reading n.text = signed (n.sign = .minus) (digitsValue n.digits) :=
        Numeral.reading_sign_digits n.isDigit
      rw [values_of_le_piece hnewline hz hshort, reading_blanks hspace, hreading, carried, last,
        Nat.div_eq_of_lt hlt, Nat.mod_eq_of_lt hlt, signed_zero, nonzero_zero_cons]
      simp only [hin, and_true]
  · -- A piece with nothing but blanks.
    have htake : (blanks ++ n.text).take 31 = blanks.take 31 := List.take_append_of_le_length hmany
    have hdrop : (blanks ++ n.text).drop 31 = blanks.drop 31 ++ n.text := List.drop_append_of_le_length hmany
    have hreading : reading (blanks.take 31) = 0 := by
      have hempty : reading (blanks.take 31 ++ []) = reading [] :=
        reading_blanks fun b hb => hspace b (List.mem_of_mem_take hb)
      rwa [List.append_nil] at hempty
    have hih := ih (blanks.length - 31) (by omega) (fun b hb => hblanks b (List.mem_of_mem_drop hb))
      (fun hmem => hnewline (List.mem_of_mem_drop (hdrop ▸ hmem))) List.length_drop
    have hlast : lastPiece (blanks.drop 31 ++ n.text).length = lastPiece (blanks ++ n.text).length := by
      rw [lastPiece_of_lt (k := (blanks ++ n.text).length) (by omega), List.length_append, List.length_drop]
      congr 1
      omega
    rw [values_of_le hnewline (by omega), htake, hdrop, hreading, nonzero_zero_cons, hih, hlast]
    rfl

end OsExercises.SumFile
