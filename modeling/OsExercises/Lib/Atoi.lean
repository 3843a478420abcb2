import Mathlib.Tactic.Ring
import OsExercises.Lib.CInt
import OsExercises.Lib.CString
import OsExercises.Lib.Decimal

/-!
# Reading decimal numbers

`atoi?` is `atoi`: white space, a sign and digits, of which there may be none; a number outside of `int`
is undefined. A `Numeral` is a decimal number as one writes it. Bytes behind a numeral change what is
read only if they begin with digits (`atoi?_text_append`, `digitsValue_append_eq_iff`).
-/

namespace OsExercises

def SPACE : UInt8 := 32
def PLUS : UInt8 := 43
def MINUS : UInt8 := 45

def isDigit (b : UInt8) : Bool := 48 ≤ b ∧ b ≤ 57

def isSpace (b : UInt8) : Bool := b = SPACE ∨ 9 ≤ b ∧ b ≤ 13

def digitsValue (digits : Bytes) : Nat := digits.foldl (fun n d => 10 * n + (d.toNat - 48)) 0

def signed (negative : Bool) (n : Nat) : Int := if negative then -n else n

def inInt? (v : Int) : Option Int := if INT_MIN ≤ v ∧ v ≤ INT_MAX then some v else none

def atoi? (s : Bytes) : Option Int :=
  let number := s.dropWhile isSpace
  let digits := if number.head? = some PLUS ∨ number.head? = some MINUS then number.tail else number
  inInt? (signed (number.head? = some MINUS) (digitsValue (digits.takeWhile isDigit)))

/-- The number at the front, 0 if there is none. -/
def reading (s : Bytes) : Int :=
  let number := s.dropWhile isSpace
  let digits := if number.head? = some PLUS ∨ number.head? = some MINUS then number.tail else number
  signed (number.head? = some MINUS) (digitsValue (digits.takeWhile isDigit))

theorem atoi?_eq (s : Bytes) : atoi? s = inInt? (reading s) := rfl

inductive Sign where
  | none
  | plus
  | minus
deriving DecidableEq

def Sign.text : Sign → Bytes
  | .none => []
  | .plus => [PLUS]
  | .minus => [MINUS]

structure Numeral where
  sign : Sign
  digits : Bytes
  digits_ne_nil : digits ≠ []
  isDigit : ∀ d ∈ digits, isDigit d = true

namespace Numeral

def text (n : Numeral) : Bytes := n.sign.text ++ n.digits

def value (n : Numeral) : Int := signed (n.sign = .minus) (digitsValue n.digits)

end Numeral

/-! ### Digits -/

section Digits

variable {a b digits : Bytes} {d : UInt8}

theorem isDigit_iff : isDigit d = true ↔ 48 ≤ d.toNat ∧ d.toNat ≤ 57 := by
  simp [isDigit, UInt8.le_iff_toNat_le]

theorem isSpace_of_isDigit (h : isDigit d = true) : isSpace d = false := by
  rw [isDigit_iff] at h
  simp [isSpace, SPACE, UInt8.le_iff_toNat_le, ← UInt8.toNat_inj]
  omega

theorem ne_of_isDigit {c : UInt8} (h : isDigit d = true) (hc : isDigit c = false) : d ≠ c := by
  rintro rfl
  cases h.symm.trans hc

theorem foldl_digits (n : Nat) : digits.foldl (fun n d => 10 * n + (d.toNat - 48)) n =
    n * 10 ^ digits.length + digitsValue digits := by
  unfold digitsValue
  induction digits generalizing n with
  | nil => simp
  | cons d digits ih =>
    rw [List.foldl_cons, List.foldl_cons, ih, ih (10 * 0 + _), List.length_cons]
    ring

theorem digitsValue_append : digitsValue (a ++ b) = digitsValue a * 10 ^ b.length + digitsValue b := by
  rw [digitsValue, List.foldl_append, foldl_digits]
  rfl

theorem digitsValue_lt (h : ∀ d ∈ digits, isDigit d = true) : digitsValue digits < 10 ^ digits.length := by
  induction digits with
  | nil => exact Nat.zero_lt_one
  | cons d digits ih =>
    obtain ⟨hd, h⟩ := List.forall_mem_cons.mp h
    have hcons : digitsValue (d :: digits) = digitsValue [d] * 10 ^ digits.length + digitsValue digits :=
      digitsValue_append (a := [d])
    have hone : digitsValue [d] ≤ 9 := by
      show 10 * 0 + (d.toNat - 48) ≤ 9
      rw [isDigit_iff] at hd
      omega
    have hmul := Nat.mul_le_mul_right (10 ^ digits.length) hone
    have hrest := ih h
    rw [hcons, List.length_cons, Nat.pow_succ]
    omega

theorem digitsValue_eq_zero_iff (h : ∀ d ∈ digits, isDigit d = true) :
    digitsValue digits = 0 ↔ ∀ d ∈ digits, d = 48 := by
  induction digits with
  | nil => simp [digitsValue]
  | cons d digits ih =>
    obtain ⟨hd, h⟩ := List.forall_mem_cons.mp h
    have hcons : digitsValue (d :: digits) = digitsValue [d] * 10 ^ digits.length + digitsValue digits :=
      digitsValue_append (a := [d])
    have hone : digitsValue [d] = d.toNat - 48 := by simp [digitsValue]
    rw [isDigit_iff] at hd
    rw [hcons, Nat.add_eq_zero_iff, ih h, List.forall_mem_cons, hone, Nat.mul_eq_zero]
    have hpow : (10 ^ digits.length = 0) ↔ False := by simp
    rw [hpow, or_false, ← UInt8.toNat_inj]
    refine and_congr_left fun _ => ?_
    show _ ↔ d.toNat = 48
    omega

/-- Digits behind a number change it, except zeros behind a zero. -/
theorem digitsValue_append_eq_iff : digitsValue (a ++ b) = digitsValue a ↔
    b = [] ∨ digitsValue a = 0 ∧ digitsValue b = 0 := by
  rw [digitsValue_append]
  cases b with
  | nil => simp [digitsValue]
  | cons d b =>
    have hpow : 10 ≤ 10 ^ (d :: b).length := by
      rw [List.length_cons, pow_succ]
      exact Nat.le_mul_of_pos_left 10 (Nat.pow_pos (by omega))
    have hmul := Nat.mul_le_mul_left (digitsValue a) hpow
    constructor
    · intro heq
      exact Or.inr ⟨by omega, by omega⟩
    · rintro (h | ⟨ha, hb⟩)
      · cases h
      · rw [ha, hb, Nat.zero_mul]

theorem toNat_digit {k : Nat} (h : k < 10) : (digit k).toNat = 48 + k := by
  rw [digit, UInt8.toNat_ofNat']
  omega

theorem isDigit_decimal (n : Nat) : ∀ d ∈ decimal n, isDigit d = true := by
  have hone : ∀ k < 10, isDigit (digit k) = true := by
    intro k hk
    rw [isDigit_iff, toNat_digit hk]
    omega
  induction n using Nat.strong_induction_on with
  | _ n ih =>
    rcases Nat.lt_or_ge n 10 with h | h
    · rw [decimal_of_lt h]
      exact List.forall_mem_singleton.mpr (hone n h)
    · rw [decimal_of_le h, List.forall_mem_append]
      exact ⟨ih _ (by omega), List.forall_mem_singleton.mpr (hone _ (Nat.mod_lt _ (by omega)))⟩

/-- What is printed is read back. -/
theorem digitsValue_decimal (n : Nat) : digitsValue (decimal n) = n := by
  have hone : ∀ k < 10, digitsValue [digit k] = k := by
    intro k hk
    show 10 * 0 + ((digit k).toNat - 48) = k
    rw [toNat_digit hk]
    omega
  induction n using Nat.strong_induction_on with
  | _ n ih =>
    rcases Nat.lt_or_ge n 10 with h | h
    · rw [decimal_of_lt h, hone n h]
    · rw [decimal_of_le h, digitsValue_append, ih _ (by omega), hone _ (Nat.mod_lt _ (by omega)), List.length_singleton]
      omega

theorem inInt?_eq_some {v w : Int} : inInt? v = some w ↔ v = w ∧ INT_MIN ≤ v ∧ v ≤ INT_MAX := by
  unfold inInt?
  split_ifs with hv
  · simp [hv]
  · simp [hv]

theorem signed_true (n : Nat) : signed true n = -n := rfl

theorem signed_false (n : Nat) : signed false n = n := rfl

theorem signed_zero {negative : Bool} : signed negative 0 = 0 := by
  cases negative <;> rfl

theorem reading_blanks {blanks s : Bytes} (h : ∀ b ∈ blanks, isSpace b = true) :
    reading (blanks ++ s) = reading s := by
  have hdrop : (blanks ++ s).dropWhile isSpace = s.dropWhile isSpace := List.dropWhile_append_of_pos h
  simp only [reading, hdrop]

theorem signed_inj {negative : Bool} {m n : Nat} : signed negative m = signed negative n ↔ m = n := by
  unfold signed
  split_ifs <;> omega

end Digits

/-! ### Numerals -/

namespace Numeral

variable {n : Numeral} {s : Bytes}

theorem notMem_text {c : UInt8} (hplus : c ≠ PLUS) (hminus : c ≠ MINUS) (hc : OsExercises.isDigit c = false) :
    c ∉ n.text := by
  rw [text, List.mem_append, not_or]
  refine ⟨?_, fun hmem => ne_of_isDigit (n.isDigit c hmem) hc rfl⟩
  cases n.sign with
  | none => exact List.not_mem_nil
  | plus => exact fun hmem => hplus (List.mem_singleton.mp hmem)
  | minus => exact fun hmem => hminus (List.mem_singleton.mp hmem)

theorem text_ne_nil : n.text ≠ [] := List.append_ne_nil_of_right_ne_nil _ n.digits_ne_nil

theorem takeWhile_digits_append :
    (n.digits ++ s).takeWhile OsExercises.isDigit = n.digits ++ s.takeWhile OsExercises.isDigit :=
  List.takeWhile_append_of_pos n.isDigit

theorem reading_text_append : reading (n.text ++ s) =
    signed (n.sign = .minus) (digitsValue (n.digits ++ s.takeWhile OsExercises.isDigit)) := by
  obtain ⟨c, rest, hc, hspace⟩ : ∃ c rest, n.text ++ s = c :: rest ∧ isSpace c = false := by
    obtain ⟨d, ds, hd⟩ := List.exists_cons_of_ne_nil n.digits_ne_nil
    unfold text
    cases n.sign with
    | none =>
      refine ⟨d, ds ++ s, by rw [hd]; rfl, isSpace_of_isDigit (n.isDigit d ?_)⟩
      rw [hd]
      exact List.mem_cons_self
    | plus => exact ⟨PLUS, n.digits ++ s, rfl, rfl⟩
    | minus => exact ⟨MINUS, n.digits ++ s, rfl, rfl⟩
  have hnumber : (n.text ++ s).dropWhile isSpace = n.text ++ s := by
    rw [hc]
    exact List.dropWhile_cons_of_neg (by rw [hspace]; exact Bool.false_ne_true)
  simp only [reading, hnumber]
  unfold text
  cases hsign : n.sign with
  | none =>
    obtain ⟨d, ds, hd⟩ := List.exists_cons_of_ne_nil n.digits_ne_nil
    have hdigit : OsExercises.isDigit d = true := n.isDigit d (by rw [hd]; exact List.mem_cons_self)
    have hplus : d ≠ PLUS := ne_of_isDigit hdigit rfl
    have hminus : d ≠ MINUS := ne_of_isDigit hdigit rfl
    have hhead : (Sign.none.text ++ n.digits ++ s).head? = some d := by
      rw [hd]
      rfl
    simp only [hhead, Option.some.injEq, hplus, hminus, or_self, if_false]
    rw [show Sign.none.text ++ n.digits ++ s = n.digits ++ s from rfl, takeWhile_digits_append]
    rfl
  | plus =>
    simp only [Sign.text, List.cons_append, List.nil_append, List.head?_cons, true_or, if_true,
      List.tail_cons, takeWhile_digits_append]
    rfl
  | minus =>
    simp only [Sign.text, List.cons_append, List.nil_append, List.head?_cons, or_true, if_true,
      List.tail_cons, takeWhile_digits_append]

/-- A sign without digits is no number. -/
theorem reading_sign_digits {sign : Sign} {digits : Bytes} (h : ∀ d ∈ digits, OsExercises.isDigit d = true) :
    reading (sign.text ++ digits) = signed (sign = .minus) (digitsValue digits) := by
  by_cases hnil : digits = []
  · subst hnil
    cases sign <;> rfl
  · have htext := reading_text_append (n := ⟨sign, digits, hnil, h⟩) (s := [])
    rwa [List.append_nil, List.takeWhile_nil, List.append_nil] at htext

theorem atoi?_text_append : atoi? (n.text ++ s) =
    inInt? (signed (n.sign = .minus) (digitsValue (n.digits ++ s.takeWhile OsExercises.isDigit))) := by
  rw [atoi?_eq, reading_text_append]

theorem atoi?_text : atoi? n.text = inInt? n.value := by
  have htext := atoi?_text_append (n := n) (s := [])
  rwa [List.append_nil, List.takeWhile_nil, List.append_nil] at htext

theorem value_append_eq_iff {digits : Bytes} (h : ∀ d ∈ digits, OsExercises.isDigit d = true) :
    signed (n.sign = .minus) (digitsValue (n.digits ++ digits)) = n.value ↔
      digits = [] ∨ n.value = 0 ∧ ∀ d ∈ digits, d = 48 := by
  have hzero : n.value = 0 ↔ digitsValue n.digits = 0 := by
    unfold value signed
    split_ifs <;> omega
  rw [hzero, ← digitsValue_eq_zero_iff h, ← digitsValue_append_eq_iff]
  exact signed_inj

end Numeral

end OsExercises
