import Mathlib.Data.List.Rotate
import Mathlib.Data.Nat.ModEq
import OsExercises.Lib.CString
import OsExercises.Lib.ForLoop

/-!
# `string_shift_right`

`string_shift_right` of `src/exercise03/task_2/task_2.c` on strings in memory. The first loop stores the
characters two places further on, modulo the length: each place is written once, and the string that
comes out is the rotated one, whatever was in the array before (`stringShiftRight_eq`).
-/

namespace OsExercises.Shift

/-! ### The code -/

def toupper (b : UInt8) : UInt8 := if 97 ≤ b ∧ b ≤ 122 then b - 32 else b

/-- What `toupper` may be called with: a `char` is signed, so from 128 on it is negative, and of the
negative values only `EOF` is allowed. -/
def IsChar (b : UInt8) : Prop := b < 128 ∨ b = 255

instance (b : UInt8) : Decidable (IsChar b) := inferInstanceAs (Decidable (_ ∨ _))

/-- What `printf` prints. -/
structure Text where
  arg_index : Nat
  original : Bytes
  uppercased : Bytes
  shifted : Bytes
deriving DecidableEq

def shiftBody (input : Bytes) (input_length char_index : Nat) (shifted_input : Bytes) : Option Bytes :=
  input[char_index]?.bind fun c => poke shifted_input ((char_index + 2) % input_length) c

def upperBody (char_index : Nat) (input : Bytes) : Option Bytes :=
  input[char_index]?.bind fun c => if IsChar c then poke input char_index (toupper c) else none

/-- `garbage` is what the memory of `shifted_input` holds. The text, and `input` afterwards. -/
def stringShiftRight (garbage : Nat → UInt8) (arg_index : Nat) (input original : Bytes) :
    Option (Text × Bytes) := do
  let s ← cString? input
  let input_length := s.length
  let shifted_input ← poke ((List.range (input_length + 1)).map garbage) input_length NUL
  let shifted_input ← forLoop (shiftBody input input_length) input_length shifted_input
  let input ← forLoop upperBody input_length input
  let original ← cString? original
  let uppercased ← cString? input
  let shifted ← cString? shifted_input
  some (⟨arg_index, original, uppercased, shifted⟩, input)

/-! ### The loops -/

/-- `s` with each character two places further on. -/
def shifted (s : Bytes) : Bytes := s.rotate (s.length - 2 % s.length)

variable {s s' : Bytes} {n : Nat}

theorem length_shifted (s : Bytes) : (shifted s).length = s.length := List.length_rotate ..

theorem getElem?_shifted {i : Nat} (hi : i < s.length) : (shifted s)[(i + 2) % s.length]? = s[i]? := by
  have hpos : 0 < s.length := Nat.zero_lt_of_lt hi
  have hlt : (i + 2) % s.length < s.length := Nat.mod_lt _ hpos
  have hback : ((i + 2) % s.length + (s.length - 2 % s.length)) % s.length = i := by
    have hmod : 2 % s.length < s.length := Nat.mod_lt _ hpos
    have hsum : (i + 2 + (s.length - 2 % s.length)) % s.length = (i + s.length * (2 / s.length + 1)) % s.length := by
      congr 1
      have := Nat.div_add_mod 2 s.length
      rw [Nat.mul_add]
      omega
    rw [Nat.mod_add_mod, hsum, Nat.add_mul_mod_self_left, Nat.mod_eq_of_lt hi]
  rw [List.getElem?_eq_getElem (by rw [length_shifted]; exact hlt), List.getElem?_eq_getElem hi]
  simp only [shifted, List.getElem_rotate, hback]

/-- The places before the iteration `i` have been written, the `NUL` stays. -/
def Shifts (s : Bytes) (i : Nat) (shifted_input : Bytes) : Prop :=
  shifted_input.length = s.length + 1 ∧ shifted_input[s.length]? = some NUL ∧
    ∀ j < i, shifted_input[(j + 2) % s.length]? = s[j]?

theorem Shifts.body {i : Nat} {area rest : Bytes} (h : Shifts s i area) (hi : i < s.length) :
    ∃ area', shiftBody (s ++ rest) s.length i area = some area' ∧ Shifts s (i + 1) area' := by
  obtain ⟨hlen, hnul, hall⟩ := h
  have hlt : (i + 2) % s.length < s.length := Nat.mod_lt _ (Nat.zero_lt_of_lt hi)
  refine ⟨area.set ((i + 2) % s.length) s[i], ?_, ?_, ?_, fun j hj => ?_⟩
  · rw [shiftBody, List.getElem?_append_left hi, List.getElem?_eq_getElem hi, Option.bind_some, poke,
      if_pos (by omega)]
  · rw [List.length_set, hlen]
  · rw [List.getElem?_set_ne (by omega), hnul]
  · by_cases hji : j = i
    · subst hji
      rw [List.getElem?_set_self (by omega), List.getElem?_eq_getElem hi]
    · have hji' : j < i := by omega
      -- no place is written twice
      have hne : (i + 2) % s.length ≠ (j + 2) % s.length := by
        intro heq
        have hmod : i ≡ j [MOD s.length] := Nat.ModEq.add_right_cancel' 2 heq
        exact hji (hmod.eq_of_lt_of_lt hi (by omega)).symm
      rw [List.getElem?_set_ne hne, hall j hji']

/-- `k` is the place of the character two places before it. -/
theorem exists_place {k : Nat} (hk : k < s.length) : ∃ j < s.length, (j + 2) % s.length = k := by
  have hmod : 2 % s.length < s.length := Nat.mod_lt _ (Nat.zero_lt_of_lt hk)
  have hsum : k + (s.length - 2 % s.length) + 2 = k + s.length * (2 / s.length + 1) := by
    have := Nat.div_add_mod 2 s.length
    rw [Nat.mul_add]
    omega
  refine ⟨(k + (s.length - 2 % s.length)) % s.length, Nat.mod_lt _ (Nat.zero_lt_of_lt hk), ?_⟩
  rw [Nat.mod_add_mod, hsum, Nat.add_mul_mod_self_left, Nat.mod_eq_of_lt hk]

theorem shiftLoop_eq (rest : Bytes) {area : Bytes} (hlen : area.length = s.length + 1)
    (hnul : area[s.length]? = some NUL) :
    forLoop (shiftBody (s ++ rest) s.length) s.length area = some (shifted s ++ [NUL]) := by
  have hstart : Shifts s 0 area := ⟨hlen, hnul, fun j hj => absurd hj (Nat.not_lt_zero j)⟩
  have hbody : ∀ i < s.length, ∀ area, Shifts s i area →
      ∃ area', shiftBody (s ++ rest) s.length i area = some area' ∧ Shifts s (i + 1) area' :=
    fun i hi area h => h.body hi
  obtain ⟨out, hout, hlen', hnul', hall⟩ := forLoop_inv hstart hbody
  rw [hout]
  refine congrArg some (List.ext_getElem? fun k => ?_)
  rcases Nat.lt_trichotomy k s.length with hk | rfl | hk
  · obtain ⟨j, hj, rfl⟩ := exists_place hk
    rw [hall j hj, List.getElem?_append_left (by rw [length_shifted]; exact hk), getElem?_shifted hj]
  · rw [hnul', List.getElem?_append_right (by rw [length_shifted]), length_shifted, Nat.sub_self]
    rfl
  · rw [List.getElem?_eq_none (by omega), List.getElem?_eq_none]
    rw [List.length_append, length_shifted, List.length_singleton]
    omega

theorem upperBody_append (front back : Bytes) {b : UInt8} (hb : IsChar b) :
    upperBody front.length (front ++ b :: back) = some (front ++ toupper b :: back) := by
  rw [upperBody, peek_append, Option.bind_some, if_pos hb, poke_append]

/-- The characters before the iteration `i` have been replaced. -/
def Uppers (s rest : Bytes) (i : Nat) (area : Bytes) : Prop :=
  area = (s.take i).map toupper ++ (s.drop i ++ rest)

theorem upperLoop_eq {rest : Bytes} (hs : ∀ b ∈ s, IsChar b) :
    forLoop upperBody s.length (s ++ rest) = some (s.map toupper ++ rest) := by
  have hbody : ∀ i < s.length, ∀ area, Uppers s rest i area →
      ∃ area', upperBody i area = some area' ∧ Uppers s rest (i + 1) area' := by
    rintro i hi area rfl
    have hlen : ((s.take i).map toupper).length = i := by
      rw [List.length_map, List.length_take_of_le (Nat.le_of_lt hi)]
    have hstore := upperBody_append ((s.take i).map toupper) (s.drop (i + 1) ++ rest)
      (hs s[i] (List.getElem_mem hi))
    rw [hlen] at hstore
    refine ⟨_, ?_, rfl⟩
    rw [List.drop_eq_getElem_cons hi, List.cons_append, hstore, List.take_succ_eq_append_getElem hi,
      List.map_append, List.append_assoc]
    rfl
  have hstart : Uppers s rest 0 (s ++ rest) := rfl
  obtain ⟨area, harea, rfl⟩ := forLoop_inv hstart hbody
  rw [harea, List.take_length, List.drop_length, List.nil_append]

/-! ### The strings -/

theorem toupper_ne_nul {b : UInt8} (hb : b ≠ NUL) : toupper b ≠ NUL := by
  unfold toupper NUL at *
  split
  · next hletter =>
    have hle : 97 ≤ b.toNat := hletter.1
    have hsub : (b - 32).toNat = b.toNat - 32 := UInt8.toNat_sub_of_le b 32 (Nat.le_trans (by decide) hle)
    intro hzero
    rw [hzero] at hsub
    exact absurd hsub (by simp; omega)
  · exact hb

theorem stringShiftRight_eq (garbage : Nat → UInt8) (arg_index : Nat) (hnul : NUL ∉ s)
    (hs : ∀ b ∈ s, IsChar b) : stringShiftRight garbage arg_index (s ++ [NUL]) (s ++ [NUL]) =
      some (⟨arg_index, s, s.map toupper, shifted s⟩, s.map toupper ++ [NUL]) := by
  have hupper : NUL ∉ s.map toupper := by
    intro hmem
    obtain ⟨b, hb, hzero⟩ := List.mem_map.mp hmem
    exact toupper_ne_nul (fun h => hnul (h ▸ hb)) hzero
  have hshifted : NUL ∉ shifted s := fun hmem => hnul (List.mem_rotate.mp hmem)
  have hlen : ((List.range (s.length + 1)).map garbage).length = s.length + 1 := by simp
  generalize hmem : (List.range (s.length + 1)).map garbage = mem at hlen
  have hpoke : poke mem s.length NUL = some (mem.set s.length NUL) := if_pos (by omega)
  have hend : (mem.set s.length NUL)[s.length]? = some NUL := List.getElem?_set_self (by omega)
  have hshift := shiftLoop_eq [NUL] (List.length_set.trans hlen) hend
  simp only [stringShiftRight, cString?_append hnul, Option.bind_eq_bind, Option.bind_some, hmem, hpoke,
    hshift, upperLoop_eq hs, cString?_append hupper, cString?_append hshifted]

end OsExercises.Shift
