import Mathlib.Data.Nat.Digits.Lemmas

/-!
# Text and decimal numbers

A text is a list of bytes. `decimal` is what `%d` prints for a number that is not negative, and
`paddedDecimal` what `%0wd` prints for any number.
-/

namespace OsExercises

def ascii (s : String) : List UInt8 := s.toList.map fun c => UInt8.ofNat c.toNat

def digit (d : Nat) : UInt8 := UInt8.ofNat (48 + d)

def decimal (n : Nat) : List UInt8 :=
  if n = 0 then [digit 0] else (Nat.digits 10 n).reverse.map digit

/-- Zeros in front, up to the width. -/
def zeroPadded (width : Nat) (text : List UInt8) : List UInt8 :=
  List.replicate (width - text.length) (digit 0) ++ text

/-- The sign counts for the width. -/
def paddedDecimal (width : Nat) (n : Int) : List UInt8 :=
  if n < 0 then ascii "-" ++ zeroPadded (width - 1) (decimal n.natAbs)
  else zeroPadded width (decimal n.toNat)

variable {n k : Nat}

theorem decimal_of_lt (h : n < 10) : decimal n = [digit n] := by
  by_cases h0 : n = 0
  · rw [h0]
    rfl
  · rw [decimal, if_neg h0, Nat.digits_of_lt 10 n h0 h]
    rfl

theorem decimal_of_le (h : 10 ≤ n) : decimal n = decimal (n / 10) ++ [digit (n % 10)] := by
  have h0 : n ≠ 0 := by omega
  have hdiv : n / 10 ≠ 0 := by omega
  rw [decimal, if_neg h0, decimal, if_neg hdiv, Nat.digits_def' (by decide) (by omega), List.reverse_cons,
    List.map_append]
  rfl

theorem decimal_ne_nil : decimal n ≠ [] := by
  rcases Nat.lt_or_ge n 10 with h | h
  · rw [decimal_of_lt h]
    exact List.cons_ne_nil _ _
  · rw [decimal_of_le h]
    exact List.append_ne_nil_of_right_ne_nil _ (List.cons_ne_nil _ _)

theorem length_decimal_le_iff (hk : 0 < k) : (decimal n).length ≤ k ↔ n < 10 ^ k := by
  rw [decimal]
  split_ifs with h0
  · exact iff_of_true hk (h0 ▸ Nat.pow_pos (by decide))
  · rw [List.length_map, List.length_reverse]
    exact Nat.digits_length_le_iff (by decide) n

theorem length_zeroPadded (width : Nat) (text : List UInt8) :
    (zeroPadded width text).length = max width text.length := by
  rw [zeroPadded, List.length_append, List.length_replicate]
  omega

theorem length_paddedDecimal_natCast (width n : Nat) :
    (paddedDecimal width n).length = max width (decimal n).length := by
  rw [paddedDecimal, if_neg (by omega), length_zeroPadded, Int.toNat_natCast]

end OsExercises
