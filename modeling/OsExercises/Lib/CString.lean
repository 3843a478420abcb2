import Mathlib.Data.List.Infix
import Mathlib.Data.List.TakeDrop

/-!
# Strings in memory

A memory area is the list of its bytes. The string at its start is what stands before the first `NUL`
(`cString?`); without a `NUL` there is none, since reading on leaves the area. Storing bytes at the
start leaves what is behind them (`overwrite`). `poke` and `strncpy` store anywhere in the area; there is no
result if they would leave it.
-/

namespace OsExercises

abbrev Bytes := List UInt8

def NUL : UInt8 := 0

def cString? (mem : Bytes) : Option Bytes :=
  if NUL ∈ mem then some (mem.takeWhile (· ≠ NUL)) else none

def overwrite (mem bytes : Bytes) : Bytes := bytes ++ mem.drop bytes.length

variable {mem s rest : Bytes}

theorem cString?_append (hs : NUL ∉ s) : cString? (s ++ NUL :: rest) = some s := by
  have hne : ∀ b ∈ s, decide (b ≠ NUL) = true := by
    intro b hb
    refine decide_eq_true ?_
    rintro rfl
    exact hs hb
  rw [cString?, if_pos (by simp), List.takeWhile_append_of_pos hne,
    List.takeWhile_cons_of_neg (by simp), List.append_nil]

theorem cString?_eq_some : cString? mem = some s ↔ NUL ∉ s ∧ s ++ [NUL] <+: mem := by
  constructor
  · intro h
    by_cases hmem : NUL ∈ mem
    · obtain ⟨a, b, rfl, ha⟩ := List.eq_append_cons_of_mem hmem
      obtain rfl : a = s := Option.some.inj ((cString?_append ha).symm.trans h)
      exact ⟨ha, b, by simp⟩
    · rw [cString?, if_neg hmem] at h
      cases h
  · rintro ⟨hs, rest, rfl⟩
    rw [List.append_assoc]
    exact cString?_append hs

/-! ### Stores -/

def poke (mem : Bytes) (p : Nat) (b : UInt8) : Option Bytes := if p < mem.length then some (mem.set p b) else none

/-- Stores exactly `n` bytes: the beginning of the string, or the string and `NUL`s behind it. -/
def strncpy (mem : Bytes) (dst : Nat) (src : Bytes) (n : Nat) : Option Bytes :=
  if dst + n ≤ mem.length then
    some (mem.take dst ++ (src.take n ++ List.replicate (n - src.length) NUL) ++ mem.drop (dst + n))
  else none

variable {front old back src : Bytes} {a b : UInt8} {n : Nat}

theorem peek_append : (front ++ a :: back)[front.length]? = some a := by
  rw [List.getElem?_append_right le_rfl, Nat.sub_self]
  rfl

theorem poke_append : poke (front ++ a :: back) front.length b = some (front ++ b :: back) := by
  have hlt : front.length < (front ++ a :: back).length := by
    rw [List.length_append, List.length_cons]
    omega
  rw [poke, if_pos hlt, List.set_append_right _ _ le_rfl, Nat.sub_self]
  rfl

theorem strncpy_append (h : old.length = n) : strncpy (front ++ old ++ back) front.length src n =
    some (front ++ (src.take n ++ List.replicate (n - src.length) NUL) ++ back) := by
  subst h
  have hle : front.length + old.length ≤ (front ++ old ++ back).length := by
    rw [List.length_append, List.length_append]
    omega
  have htake : (front ++ old ++ back).take front.length = front := by
    rw [List.append_assoc, List.take_left]
  have hdrop : (front ++ old ++ back).drop (front.length + old.length) = back := by
    rw [← List.length_append, List.drop_left]
  rw [strncpy, if_pos hle, htake, hdrop]

end OsExercises
