import OsExercises.Lib.CString

/-!
# Reading lines

`fgets` reads a line, or as much of it as its buffer holds: a longer line comes in pieces (`pieces`), which
start again at the next line. What follows a line in a file is nothing, or a newline and the lines after it.
-/

namespace OsExercises

def NEWLINE : UInt8 := 10

/-- The first line, or its first `n` bytes. -/
def lineOf : Nat → Bytes → Bytes
  | 0, _ => []
  | _ + 1, [] => []
  | n + 1, b :: s => if b = NEWLINE then [b] else b :: lineOf n s

/-- What is stored in a buffer of `size` bytes before the `NUL`, and the rest of the file. -/
def fgets (size : Nat) (file : Bytes) : Option (Bytes × Bytes) :=
  if file = [] then none
  else some (lineOf (size - 1) file, file.drop (lineOf (size - 1) file).length)

variable {n : Nat} {file w z : Bytes}

theorem lineOf_ne_nil (h : file ≠ []) : lineOf (n + 1) file ≠ [] := by
  obtain ⟨b, s, rfl⟩ := List.exists_cons_of_ne_nil h
  rw [lineOf]
  split_ifs <;> exact List.cons_ne_nil _ _

theorem length_drop_lineOf_lt (h : file ≠ []) : (file.drop (lineOf (n + 1) file).length).length < file.length := by
  have hpos := List.length_pos_iff.mpr (lineOf_ne_nil (n := n) h)
  have hfile := List.length_pos_iff.mpr h
  rw [List.length_drop]
  omega

/-- What the calls of `fgets` with `n + 2` bytes read until the end of the file. -/
def pieces (n : Nat) (file : Bytes) : List Bytes :=
  if h : file = [] then []
  else lineOf (n + 1) file :: pieces n (file.drop (lineOf (n + 1) file).length)
termination_by file.length
decreasing_by exact length_drop_lineOf_lt h

theorem pieces_nil : pieces n [] = [] := by
  rw [pieces, dif_pos rfl]

theorem pieces_of_ne_nil (h : file ≠ []) :
    pieces n file = lineOf (n + 1) file :: pieces n (file.drop (lineOf (n + 1) file).length) := by
  rw [pieces, dif_neg h]

/-! ### The pieces of a line -/

/-- The end of the file or of the line. -/
def Ends (z : Bytes) : Prop := ∀ b ∈ z.head?, b = NEWLINE

theorem lineOf_of_le (hw : NEWLINE ∉ w) (h : n ≤ w.length) : lineOf n (w ++ z) = w.take n := by
  induction w generalizing n with
  | nil =>
    obtain rfl := Nat.le_zero.mp h
    rfl
  | cons b w ih =>
    cases n with
    | zero => rfl
    | succ n =>
      obtain ⟨hb, hw⟩ := not_or.mp (List.mem_cons.not.mp hw)
      rw [List.cons_append, lineOf, if_neg (Ne.symm hb), ih hw (Nat.le_of_succ_le_succ h), List.take_succ_cons]

theorem lineOf_of_lt (hw : NEWLINE ∉ w) (hz : Ends z) (h : w.length < n) : lineOf n (w ++ z) = w ++ z.take 1 := by
  induction w generalizing n with
  | nil =>
    obtain ⟨k, rfl⟩ := Nat.exists_eq_add_of_lt h
    cases z with
    | nil => rfl
    | cons b z =>
      rw [List.nil_append, lineOf, if_pos (hz b rfl)]
      rfl
  | cons b w ih =>
    obtain ⟨k, rfl⟩ := Nat.exists_eq_add_one.mpr (Nat.zero_lt_of_lt h)
    obtain ⟨hb, hw⟩ := not_or.mp (List.mem_cons.not.mp hw)
    rw [List.cons_append, lineOf, if_neg (Ne.symm hb), ih hw (Nat.lt_of_succ_lt_succ h)]
    rfl

theorem pieces_of_le (hw : NEWLINE ∉ w) (h : n + 1 ≤ w.length) :
    pieces n (w ++ z) = w.take (n + 1) :: pieces n (w.drop (n + 1) ++ z) := by
  have hne : w ++ z ≠ [] := List.append_ne_nil_of_left_ne_nil (List.ne_nil_of_length_pos (by omega)) z
  rw [pieces_of_ne_nil hne, lineOf_of_le hw h, List.length_take_of_le h, List.drop_append_of_le_length h]

theorem pieces_of_lt (hw : NEWLINE ∉ w) (hz : Ends z) (hne : w ++ z ≠ []) (h : w.length < n + 1) :
    pieces n (w ++ z) = (w ++ z.take 1) :: pieces n z.tail := by
  have hdrop : (w ++ z).drop (w ++ z.take 1).length = z.tail := by
    cases z with
    | nil =>
      rw [List.take_nil, List.append_nil, List.drop_length]
      rfl
    | cons b z =>
      have heq : w ++ b :: z = w ++ [b] ++ z := List.append_cons ..
      rw [heq]
      exact List.drop_left
  rw [pieces_of_ne_nil hne, lineOf_of_lt hw hz h, hdrop]

end OsExercises
