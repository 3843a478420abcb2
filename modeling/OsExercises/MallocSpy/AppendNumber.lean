import OsExercises.Lib.Atoi

/-!
# `append_number`

`append_number` of `src/exercise11/task_3/malloc_spy.c`, on a buffer that contains `dst`. The call for the
digits before the last one writes a `NUL` behind them if there is room, and the last digit takes its place.
A full buffer shows as a digit under the pointer that is returned. So the result is the text and its `NUL`,
cut off after `len` bytes (`appendNumber_eq`).
-/

namespace OsExercises.MallocSpy

/-! ### The code -/

/-- The code behind the recursive call. -/
def appendDigit (buf : Bytes) (dst number len : Nat) : Option (Bytes × Nat) := do
  let buf ← if 0 < len then poke buf dst (digit (number % 10)) else some buf
  if 0 < sizeSub len 1 then do
    let buf ← poke buf (dst + 1) NUL
    some (buf, dst + 1)
  else some (buf, dst)

/-- The buffer afterwards and the pointer that is returned. -/
def appendNumber (buf : Bytes) (dst number len : Nat) : Option (Bytes × Nat) :=
  if len = 0 then some (buf, dst)
  else if 9 < number then do
    let (buf, newDst) ← appendNumber buf dst (number / 10) len
    let b ← buf[newDst]?
    if b ≠ NUL then some (buf, newDst) else appendDigit buf newDst number (sizeSub len (sizeSub newDst dst))
  else appendDigit buf dst number len
termination_by number
decreasing_by omega

/-! ### The digits -/

variable {front old back : Bytes} {number len : Nat}

theorem digit_ne_nul {d : UInt8} (h : isDigit d = true) : d ≠ NUL := ne_of_isDigit h rfl

theorem length_decimal_of_le (h : 10 ≤ number) :
    (decimal number).length = (decimal (number / 10)).length + 1 := by
  rw [decimal_of_le h, List.length_append, List.length_singleton]

/-- One digit, and a `NUL` if there is room for it. -/
theorem appendDigit_eq (hpos : 0 < len) (hlen : len < 2 ^ 64) (hold : old.length = min len 2) :
    appendDigit (front ++ old ++ back) front.length number len =
      some (front ++ [digit (number % 10), NUL].take len ++ back, front.length + min (len - 1) 1) := by
  have hsub : sizeSub len 1 = len - 1 := sizeSub_of_le hpos hlen
  match old with
  | [] =>
    rw [List.length_nil] at hold
    omega
  | [a] =>
    obtain rfl : len = 1 := by
      rw [List.length_singleton] at hold
      omega
    simp only [appendDigit, hsub, if_pos hpos, List.append_assoc, List.singleton_append, poke_append]
    rfl
  | [a, b] =>
    rw [List.length_cons, List.length_singleton] at hold
    have hroom : 0 < len - 1 := by omega
    have hnext : (front ++ [digit (number % 10)]).length = front.length + 1 := by
      rw [List.length_append, List.length_singleton]
    have hstore : poke (front ++ digit (number % 10) :: b :: back) (front.length + 1) NUL =
        some (front ++ digit (number % 10) :: NUL :: back) := by
      rw [← hnext, List.append_cons, poke_append, ← List.append_cons]
    have htake : [digit (number % 10), NUL].take len = [digit (number % 10), NUL] :=
      List.take_of_length_le (by rw [List.length_cons, List.length_singleton]; omega)
    have hmin : min (len - 1) 1 = 1 := by omega
    simp only [appendDigit, hsub, if_pos hpos, if_pos hroom, htake, hmin, List.append_assoc,
      List.cons_append, List.nil_append, Option.bind_eq_bind, poke_append, hstore, Option.bind_some]
  | a :: b :: c :: rest =>
    rw [List.length_cons, List.length_cons, List.length_cons] at hold
    omega

/-! ### All digits -/

/-- There was no room for the digit: what the call for the digits before it has written is all. -/
theorem appendNumber_full {number : Nat} (h9 : 9 < number) (hpos : 0 < len)
    (hfull : len ≤ (decimal (number / 10)).length)
    (hcall : appendNumber (front ++ old ++ back) front.length (number / 10) len =
      some (front ++ (decimal (number / 10)).take len ++ back, front.length + (len - 1))) :
    appendNumber (front ++ old ++ back) front.length number len =
      some (front ++ (decimal (number / 10)).take len ++ back, front.length + (len - 1)) := by
  obtain ⟨d, hd⟩ : ∃ d, (decimal (number / 10))[len - 1]? = some d :=
    ⟨_, List.getElem?_eq_getElem (by omega)⟩
  have hlength : ((decimal (number / 10)).take len).length = len := List.length_take_of_le hfull
  have hpeek : (front ++ (decimal (number / 10)).take len ++ back)[front.length + (len - 1)]? = some d := by
    rw [List.append_assoc, List.getElem?_append_right (Nat.le_add_right _ _), Nat.add_sub_cancel_left,
      List.getElem?_append_left (by omega), List.getElem?_take_of_lt (by omega), hd]
  have hdigit : d ≠ NUL := digit_ne_nul (isDigit_decimal _ d (List.mem_of_getElem? hd))
  rw [appendNumber, if_neg (Nat.ne_of_gt hpos), if_pos h9, hcall]
  simp only [Option.bind_eq_bind, Option.bind_some, hpeek, ne_eq, hdigit, not_false_eq_true, if_true]

/-- There is room: the digit overwrites the `NUL`. -/
theorem appendNumber_room {number : Nat} (h9 : 9 < number) (hlen : len < 2 ^ 64)
    (hroom : (decimal (number / 10)).length < len) (hold : old.length = min (len - (decimal (number / 10)).length) 2 - 1)
    {mem : Bytes} (hcall : appendNumber mem front.length (number / 10) len =
      some (front ++ decimal (number / 10) ++ NUL :: old ++ back,
        front.length + (decimal (number / 10)).length)) :
    appendNumber mem front.length number len =
      some (front ++ (decimal number ++ [NUL]).take len ++ back,
        front.length + min (len - 1) (decimal number).length) := by
  have hlength := length_decimal_of_le h9
  have hnew : (front ++ decimal (number / 10)).length = front.length + (decimal (number / 10)).length :=
    List.length_append
  have hpeek : (front ++ decimal (number / 10) ++ NUL :: old ++ back)[front.length +
      (decimal (number / 10)).length]? = some NUL := by
    rw [← hnew, List.append_assoc _ _ back]
    exact peek_append
  have hleft : sizeSub len (sizeSub (front.length + (decimal (number / 10)).length) front.length) =
      len - (decimal (number / 10)).length := by
    unfold sizeSub
    omega
  have htext : (decimal number ++ [NUL]).take len = decimal (number / 10) ++
      [digit (number % 10), NUL].take (len - (decimal (number / 10)).length) := by
    rw [decimal_of_le h9, List.append_assoc, List.take_append, List.take_of_length_le (Nat.le_of_lt hroom)]
    rfl
  have hdigit : appendDigit (front ++ decimal (number / 10) ++ NUL :: old ++ back)
      (front ++ decimal (number / 10)).length number (len - (decimal (number / 10)).length) =
      some (front ++ decimal (number / 10) ++
        [digit (number % 10), NUL].take (len - (decimal (number / 10)).length) ++ back,
        (front ++ decimal (number / 10)).length + min (len - (decimal (number / 10)).length - 1) 1) :=
    appendDigit_eq (by omega) (by omega) (by rw [List.length_cons]; omega)
  have hend : front.length + (decimal (number / 10)).length + min (len - (decimal (number / 10)).length - 1) 1 =
      front.length + min (len - 1) (decimal number).length := by omega
  rw [appendNumber, if_neg (by omega), if_pos h9, hcall]
  simp only [Option.bind_eq_bind, Option.bind_some, hpeek, ne_eq, not_true_eq_false, if_false, hleft]
  rw [hnew, hend] at hdigit
  rw [hdigit, htext, List.append_assoc front]

theorem appendNumber_eq (number : Nat) (front old back : Bytes) {len : Nat} (hlen : len < 2 ^ 64)
    (hold : old.length = min len ((decimal number).length + 1)) :
    appendNumber (front ++ old ++ back) front.length number len =
      some (front ++ (decimal number ++ [NUL]).take len ++ back,
        front.length + min (len - 1) (decimal number).length) := by
  induction number using Nat.strong_induction_on generalizing old back with
  | _ number ih =>
  rcases Nat.eq_zero_or_pos len with rfl | hpos
  · obtain rfl : old = [] := List.eq_nil_of_length_eq_zero (hold.trans (Nat.zero_min _))
    rw [appendNumber, if_pos rfl, List.append_nil, Nat.zero_sub, Nat.zero_min]
    simp
  · rcases Nat.lt_or_ge 9 number with h9 | h9
    · have hlength := length_decimal_of_le h9
      rcases Nat.lt_or_ge (decimal (number / 10)).length len with hroom | hfull
      · -- The inner call gets the places of its own digits and of its `NUL`.
        obtain ⟨old, rest, rfl, holds⟩ : ∃ a b, old = a ++ b ∧ a.length = (decimal (number / 10)).length + 1 :=
          ⟨_, _, (List.take_append_drop _ old).symm, List.length_take_of_le (by omega)⟩
        rw [List.length_append] at hold
        have hinner : old.length = min len ((decimal (number / 10)).length + 1) := by omega
        have hwhole : (decimal (number / 10) ++ [NUL]).take len = decimal (number / 10) ++ [NUL] :=
          List.take_of_length_le (by rw [List.length_append, List.length_singleton]; omega)
        have hend : min (len - 1) (decimal (number / 10)).length = (decimal (number / 10)).length := by omega
        have hcall := ih (number / 10) (by omega) old (rest ++ back) hinner
        rw [hwhole, hend] at hcall
        rw [← List.append_assoc front old rest, List.append_assoc (front ++ old)]
        have hrest : rest.length = min (len - (decimal (number / 10)).length) 2 - 1 := by omega
        refine appendNumber_room h9 hlen hroom hrest (hcall.trans ?_)
        simp only [List.append_assoc, List.cons_append, List.nil_append]
      · have hcut : ∀ s : Bytes, (decimal (number / 10) ++ s).take len = (decimal (number / 10)).take len :=
          fun s => List.take_append_of_le_length hfull
        have hcall := ih (number / 10) (by omega) old back (hold.trans (by omega))
        rw [hcut, Nat.min_eq_left (by omega)] at hcall
        rw [appendNumber_full h9 hpos hfull hcall, Nat.min_eq_left (by omega), decimal_of_le h9,
          List.append_assoc (decimal _), hcut]
    · have hone := decimal_of_lt (Nat.lt_succ_of_le h9)
      have hmod : number % 10 = number := Nat.mod_eq_of_lt (Nat.lt_succ_of_le h9)
      rw [hone, List.length_singleton] at hold ⊢
      rw [appendNumber, if_neg (Nat.ne_of_gt hpos), if_neg (Nat.not_lt.mpr h9), appendDigit_eq hpos hlen hold, hmod]
      rfl

/-- What `append_number` does at the end of `front`, to a buffer with the room it needs there. -/
structure Appends (front old back : Bytes) (number len : Nat) : Prop where
  nothing : len = 0 →
    appendNumber (front ++ old ++ back) front.length number len = some (front ++ old ++ back, front.length)
  whole : (decimal number).length < len → appendNumber (front ++ old ++ back) front.length number len =
    some (front ++ (decimal number ++ [NUL]) ++ back, front.length + (decimal number).length)
  truncated : 1 ≤ len → len ≤ (decimal number).length →
    appendNumber (front ++ old ++ back) front.length number len =
      some (front ++ (decimal number).take len ++ back, front.length + (len - 1))

theorem appendNumber_spec (front old back : Bytes) (number len : Nat) (hlen : len < 2 ^ 64)
    (hold : old.length = min len ((decimal number).length + 1)) : Appends front old back number len := by
  have heq := appendNumber_eq number front old back hlen hold
  refine ⟨fun h => ?_, fun h => ?_, fun hpos h => ?_⟩
  · rw [appendNumber, if_pos h]
  · have hwhole : (decimal number ++ [NUL]).take len = decimal number ++ [NUL] :=
      List.take_of_length_le (by rw [List.length_append, List.length_singleton]; omega)
    rw [heq, hwhole, Nat.min_eq_right (by omega)]
  · rw [heq, List.take_append_of_le_length h, Nat.min_eq_left (by omega)]

theorem appendNumber_spec_cut : Appends [1, 2] [3, 4] [5, 6] 345 2 :=
  appendNumber_spec [1, 2] [3, 4] [5, 6] 345 2 (by decide) (by simp [decimal])

end OsExercises.MallocSpy
