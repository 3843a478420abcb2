import Mathlib.Data.Nat.Size
import OsExercises.Lib.Loop
import OsExercises.MallocSpy.AppendNumber

/-!
# The message of `malloc`

`malloc` of `src/exercise11/task_3/malloc_spy.c` leaves as many bytes for the number as it has binary
digits, and prints it in decimal. From 2 on there are more binary digits than decimal ones, so the `NUL`
of `append_number` stays before the last word; 0 has no binary digit at all. What is left is 1
(`composes_iff`).
-/

namespace OsExercises.MallocSpy

/-! ### The code -/

/-- The variables of the loop that counts. -/
structure Count where
  i : Nat
  len : Nat

def Count.going (c : Count) : Bool := 0 < c.i

def Count.body (c : Count) : Option Count := some ⟨c.i / 2, sizeAdd c.len 1⟩

/-- `buf` at the call of the real `malloc`. -/
def malloc (size : Nat) : Option Bytes := do
  let count ← whileLoop Count.going Count.body 65 ⟨size, 0⟩
  let buf ← strncpy (List.replicate 128 NUL) 0 (ascii "allocating") 11
  let (buf, _) ← appendNumber buf 10 size count.len
  strncpy buf (10 + count.len) (ascii "bytes") 6

/-- `malloc` stays inside of `buf`, and the string there is the message. -/
def Composes (size : Nat) : Prop :=
  ∃ buf, malloc size = some buf ∧ cString? buf = some (ascii "allocating" ++ decimal size ++ ascii "bytes")

/-! ### Binary and decimal digits -/

variable {n size : Nat}

theorem size_div_two (h : 0 < n) : Nat.size n = Nat.size (n / 2) + 1 := by
  have hbit : Nat.bit (Nat.bodd n) (n / 2) = n := Nat.bit_bodd_div2 n
  have hsize := Nat.size_bit (b := Nat.bodd n) (n := n / 2) (by rw [hbit]; omega)
  rwa [hbit] at hsize

theorem count_eq {i len fuel : Nat} (hfuel : Nat.size i < fuel) (hlen : len + Nat.size i < 2 ^ 64) :
    whileLoop Count.going Count.body fuel ⟨i, len⟩ = some ⟨0, len + Nat.size i⟩ := by
  induction fuel generalizing i len with
  | zero => omega
  | succ fuel ih =>
    rcases Nat.eq_zero_or_pos i with rfl | hi
    · exact whileLoop_exit (Nat.succ_pos fuel) rfl
    · have hsize := size_div_two hi
      have hadd : sizeAdd len 1 = len + 1 := sizeAdd_of_lt (by omega)
      have hbody : Count.body ⟨i, len⟩ = some ⟨i / 2, len + 1⟩ := by
        rw [Count.body, hadd]
      have hgoing : Count.going ⟨i, len⟩ = true := decide_eq_true hi
      rw [whileLoop_step hgoing hbody, ih (by omega) (by omega), hsize]
      exact congrArg (fun k => some (Count.mk 0 k)) (by omega)

theorem two_pow_length_decimal_le : ∀ n, 2 ≤ n → 2 ^ (decimal n).length ≤ n := by
  intro n
  induction n using Nat.strong_induction_on with
  | _ n ih =>
    intro h2
    rcases Nat.lt_or_ge n 10 with h | h
    · rw [decimal_of_lt h]
      exact h2
    · rw [length_decimal_of_le h, Nat.pow_succ]
      by_cases hq : 2 ≤ n / 10
      · have hle := ih (n / 10) (by omega) hq
        omega
      · rw [decimal_of_lt (by omega)]
        show 2 ^ 1 * 2 ≤ n
        omega

/-- From 2 on a number has more binary digits than decimal ones. -/
theorem length_decimal_lt_size (h : 2 ≤ n) : (decimal n).length < Nat.size n :=
  Nat.lt_size.mpr (two_pow_length_decimal_le n h)

/-! ### The buffer -/

def allocating : Bytes := ascii "allocating"

def bytes : Bytes := ascii "bytes"

/-- The number is printed into the zeros behind the first word. -/
theorem malloc_eq (h : size < 2 ^ 64) : malloc size =
    strncpy (allocating ++ (decimal size ++ [NUL]).take (Nat.size size) ++
      List.replicate (118 - min (Nat.size size) ((decimal size).length + 1)) NUL) (10 + Nat.size size) bytes 6 := by
  have hsize : Nat.size size ≤ 64 := Nat.size_le.mpr h
  have hcount : whileLoop Count.going Count.body 65 ⟨size, 0⟩ = some ⟨0, Nat.size size⟩ := by
    rw [count_eq (by omega) (by omega), Nat.zero_add]
  have hfirst : strncpy (List.replicate 128 NUL) 0 (ascii "allocating") 11 =
      some (allocating ++ List.replicate 118 NUL) := by decide +kernel
  have hzeros : List.replicate 118 NUL = List.replicate (min (Nat.size size) ((decimal size).length + 1)) NUL ++
      List.replicate (118 - min (Nat.size size) ((decimal size).length + 1)) NUL := by
    rw [List.replicate_append_replicate, Nat.add_sub_cancel' (by omega)]
  have happend : appendNumber (allocating ++ List.replicate 118 NUL) 10 size (Nat.size size) =
      some (allocating ++ (decimal size ++ [NUL]).take (Nat.size size) ++
        List.replicate (118 - min (Nat.size size) ((decimal size).length + 1)) NUL,
        10 + min (Nat.size size - 1) (decimal size).length) := by
    rw [hzeros, ← List.append_assoc]
    exact appendNumber_eq size allocating _ _ (by omega) List.length_replicate
  simp only [malloc, hcount, hfirst, happend, Option.bind_eq_bind, Option.bind_some]
  rfl

theorem nul_notMem {a : Bytes} (ha : NUL ∉ a) : NUL ∉ a ++ decimal size :=
  List.not_mem_append ha fun hmem => digit_ne_nul (isDigit_decimal size NUL hmem) rfl

/-- The last word, stored into zeros, and the `NUL` of `strncpy`. -/
theorem strncpy_bytes {front : Bytes} {k : Nat} (hlength : front.length = n) (hk : 6 ≤ k) :
    strncpy (front ++ List.replicate k NUL) n bytes 6 = some (front ++ bytes ++ NUL :: List.replicate (k - 6) NUL) := by
  have hzeros : List.replicate k NUL = List.replicate 6 NUL ++ List.replicate (k - 6) NUL := by
    rw [List.replicate_append_replicate, Nat.add_sub_cancel' hk]
  have hword : bytes.take 6 ++ List.replicate (6 - bytes.length) NUL = bytes ++ [NUL] := rfl
  rw [hzeros, ← List.append_assoc, ← hlength, strncpy_append List.length_replicate, hword]
  simp only [List.append_assoc, List.singleton_append]

/-- Not all digits fit in front of the last word. -/
theorem malloc_of_le (h : size < 2 ^ 64) (hle : Nat.size size ≤ (decimal size).length) : ∃ buf,
    malloc size = some buf ∧ cString? buf = some (allocating ++ (decimal size).take (Nat.size size) ++ bytes) := by
  have hsize : Nat.size size ≤ 64 := Nat.size_le.mpr h
  have hlength : (allocating ++ (decimal size).take (Nat.size size)).length = 10 + Nat.size size := by
    rw [List.length_append, List.length_take_of_le hle]
    rfl
  rw [malloc_eq h, List.take_append_of_le_length hle, strncpy_bytes hlength (by omega)]
  refine ⟨_, rfl, cString?_append ?_⟩
  have hdigits : NUL ∉ (decimal size).take (Nat.size size) := fun hmem =>
    digit_ne_nul (isDigit_decimal size NUL (List.mem_of_mem_take hmem)) rfl
  exact List.not_mem_append (List.not_mem_append (by decide) hdigits) (by decide)

/-- The `NUL` behind the digits stays in front of the last word. -/
theorem malloc_of_lt (h : size < 2 ^ 64) (hlt : (decimal size).length < Nat.size size) : ∃ buf,
    malloc size = some buf ∧ cString? buf = some (allocating ++ decimal size) := by
  have hsize : Nat.size size ≤ 64 := Nat.size_le.mpr h
  have hwhole : (decimal size ++ [NUL]).take (Nat.size size) = decimal size ++ [NUL] :=
    List.take_of_length_le (by rw [List.length_append, List.length_singleton]; omega)
  have hzeros : List.replicate (118 - min (Nat.size size) ((decimal size).length + 1)) NUL =
      List.replicate (Nat.size size - ((decimal size).length + 1)) NUL ++ List.replicate (118 - Nat.size size) NUL := by
    rw [List.replicate_append_replicate, Nat.min_eq_right hlt]
    exact congrArg (List.replicate · NUL) (by omega)
  have hlength : (allocating ++ (decimal size ++ [NUL]) ++
      List.replicate (Nat.size size - ((decimal size).length + 1)) NUL).length = 10 + Nat.size size := by
    have hten : allocating.length = 10 := rfl
    simp only [List.length_append, List.length_singleton, List.length_replicate]
    omega
  rw [malloc_eq h, hwhole, hzeros, ← List.append_assoc, strncpy_bytes hlength (by omega)]
  refine ⟨_, rfl, ?_⟩
  simp only [← List.append_assoc allocating, List.append_assoc (_ ++ _), List.singleton_append]
  exact cString?_append (nul_notMem (by decide))

theorem not_composes_of_two_le (h : size < 2 ^ 64) (h2 : 2 ≤ size) : ¬ Composes size := by
  rintro ⟨buf, hbuf, hstring⟩
  obtain ⟨buf', hbuf', hstring'⟩ := malloc_of_lt h (length_decimal_lt_size h2)
  obtain rfl := Option.some.inj (hbuf.symm.trans hbuf')
  have heq := congrArg List.length (Option.some.inj (hstring.symm.trans hstring'))
  simp [ascii, allocating] at heq

/-- Only for 1 the message is whole. -/
theorem composes_iff (size : Nat) (h : size < 2 ^ 64) : Composes size ↔ size = 1 := by
  rcases Nat.lt_or_ge size 2 with hlt | h2
  · have hdecimal := decimal_of_lt (show size < 10 by omega)
    have hsize : Nat.size size = size := by
      rcases Nat.le_one_iff_eq_zero_or_eq_one.mp (Nat.le_of_lt_succ hlt) with rfl | rfl
      · exact Nat.size_zero
      · exact Nat.size_one
    obtain ⟨buf, hbuf, hstring⟩ := malloc_of_le h (by rw [hsize, hdecimal]; exact Nat.le_of_lt_succ hlt)
    rw [hsize, hdecimal] at hstring
    constructor
    · rintro ⟨buf', hbuf', hstring'⟩
      obtain rfl := Option.some.inj (hbuf.symm.trans hbuf')
      have heq := congrArg List.length (Option.some.inj (hstring.symm.trans hstring'))
      rw [hdecimal] at heq
      simp [ascii, allocating, bytes] at heq
      omega
    · rintro rfl
      refine ⟨buf, hbuf, ?_⟩
      rw [hstring, hdecimal]
      rfl
  · exact iff_of_false (not_composes_of_two_le h h2) (by omega)

theorem composes_one : Composes 1 := (composes_iff 1 (by decide)).mpr rfl

theorem not_composes_sixteen : ¬ Composes 16 := not_composes_of_two_le (by decide) (by decide)

end OsExercises.MallocSpy
