import OsExercises.Lib.Atoi
import OsExercises.Lib.LineInput
import OsExercises.Lib.Loop

/-!
# `sum_file`

`sum_file` of `src/exercise03/task_3/task_3b.c`, once the file is open. It applies `atoi` to what `fgets`
reads and never asks whether that was a whole line. The sum is that of the numbers at the front of the
pieces, if none of them and no total on the way overflows (`sumFile_eq`).
-/

namespace OsExercises.SumFile

/-! ### The code -/

def LINE_BUF_SIZE : Nat := 32

/-- What is left of the file, and `thread->sum`. -/
structure Thread where
  file : Bytes
  sum : Int

def Thread.going (x : Thread) : Bool := (fgets LINE_BUF_SIZE x.file).isSome

def Thread.body (x : Thread) : Option Thread := do
  let (line_buf, file) ← fgets LINE_BUF_SIZE x.file
  let n ← atoi? line_buf
  let sum ← longLongAdd? x.sum n
  some ⟨file, sum⟩

def sumFile (file : Bytes) : Option Int :=
  (whileLoop Thread.going Thread.body (file.length + 1) ⟨file, 0⟩).map Thread.sum

/-! ### Totals -/

/-- The numbers added to a total, one after the other. -/
def addAll? : Int → List Int → Option Int
  | total, [] => some total
  | total, v :: vs => do
    let n ← inInt? v
    let total ← longLongAdd? total n
    addAll? total vs

def InLongLong (v : Int) : Prop := LLONG_MIN ≤ v ∧ v ≤ LLONG_MAX

/-- The numbers are values of an `int`, and no total on the way from `total` overflows. -/
structure BoundedFrom (total : Int) (vs : List Int) : Prop where
  ints : ∀ v ∈ vs, INT_MIN ≤ v ∧ v ≤ INT_MAX
  totals : ∀ vs', vs' <+: vs → InLongLong (total + vs'.sum)

theorem inLongLong_zero : InLongLong 0 := ⟨by decide, by decide⟩

variable {file : Bytes} {total v u : Int} {vs : List Int}

theorem boundedFrom_cons : BoundedFrom total (v :: vs) ↔
    (INT_MIN ≤ v ∧ v ≤ INT_MAX) ∧ InLongLong total ∧ BoundedFrom (total + v) vs := by
  constructor
  · rintro ⟨hints, htotals⟩
    obtain ⟨hv, hvs⟩ := List.forall_mem_cons.mp hints
    refine ⟨hv, ?_, hvs, fun vs' hvs' => ?_⟩
    · have hnil := htotals [] (List.nil_prefix)
      rwa [List.sum_nil, Int.add_zero] at hnil
    · have hcons := htotals (v :: vs') (List.cons_prefix_cons.mpr ⟨rfl, hvs'⟩)
      rwa [List.sum_cons, ← Int.add_assoc] at hcons
  · rintro ⟨hv, htotal, hvs⟩
    refine ⟨List.forall_mem_cons.mpr ⟨hv, hvs.ints⟩, fun vs' hvs' => ?_⟩
    cases vs' with
    | nil => rwa [List.sum_nil, Int.add_zero]
    | cons w vs' =>
      obtain ⟨rfl, hprefix⟩ := List.cons_prefix_cons.mp hvs'
      rw [List.sum_cons, ← Int.add_assoc]
      exact hvs.totals vs' hprefix

theorem longLongAdd?_of_in (h : InLongLong (total + v)) : longLongAdd? total v = some (total + v) := if_pos h

theorem longLongAdd?_of_not (h : ¬ InLongLong (total + v)) : longLongAdd? total v = none := if_neg h

theorem addAll?_eq_some (htotal : InLongLong total) :
    addAll? total vs = some u ↔ BoundedFrom total vs ∧ total + vs.sum = u := by
  induction vs generalizing total with
  | nil =>
    have hbounded : BoundedFrom total [] := by
      refine ⟨List.forall_mem_nil _, fun vs' hvs' => ?_⟩
      rw [List.prefix_nil.mp hvs', List.sum_nil, Int.add_zero]
      exact htotal
    rw [addAll?, List.sum_nil, Int.add_zero, Option.some.injEq]
    exact (and_iff_right hbounded).symm
  | cons v vs ih =>
    rw [boundedFrom_cons, List.sum_cons, ← Int.add_assoc, addAll?]
    by_cases hv : INT_MIN ≤ v ∧ v ≤ INT_MAX
    · have hint : inInt? v = some v := if_pos hv
      by_cases hsum : InLongLong (total + v)
      · simp only [hint, longLongAdd?_of_in hsum, Option.bind_eq_bind, Option.bind_some]
        rw [ih hsum]
        exact and_congr_left fun _ => ⟨fun h => ⟨hv, htotal, h⟩, fun h => h.2.2⟩
      · simp only [hint, longLongAdd?_of_not hsum, Option.bind_eq_bind, Option.bind_some, Option.bind_none]
        refine iff_of_false (fun h => by cases h) fun h => hsum ?_
        have hnil := h.1.2.2.totals [] List.nil_prefix
        rwa [List.sum_nil, Int.add_zero] at hnil
    · have hint : inInt? v = none := if_neg hv
      rw [hint]
      exact iff_of_false (fun h => by cases h) fun h => hv h.1.1

/-- Zeros change nothing. -/
theorem addAll?_filter (htotal : InLongLong total) :
    addAll? total (vs.filter (· ≠ 0)) = addAll? total vs := by
  induction vs generalizing total with
  | nil => rfl
  | cons v vs ih =>
    by_cases hv : v = 0
    · have hint : inInt? 0 = some 0 := rfl
      have hsum : longLongAdd? total 0 = some total := by
        rw [longLongAdd?_of_in (by rwa [Int.add_zero]), Int.add_zero]
      rw [hv, List.filter_cons_of_neg (by decide), ih htotal, addAll?]
      simp only [hint, hsum, Option.bind_eq_bind, Option.bind_some]
    · have hfilter : (v :: vs).filter (· ≠ 0) = v :: vs.filter (· ≠ 0) :=
        List.filter_cons_of_pos (decide_eq_true hv)
      rw [hfilter, addAll?, addAll?]
      cases hint : inInt? v with
      | none => rfl
      | some n =>
        simp only [Option.bind_eq_bind, Option.bind_some]
        by_cases hsum : InLongLong (total + n)
        · rw [longLongAdd?_of_in hsum, Option.bind_some, Option.bind_some, ih hsum]
        · rw [longLongAdd?_of_not hsum]
          rfl

/-! ### The loop -/

theorem fgets_eq (h : file ≠ []) : fgets LINE_BUF_SIZE file =
    some (lineOf 31 file, file.drop (lineOf 31 file).length) := if_neg h

theorem loop_eq {fuel : Nat} (hfuel : file.length < fuel) :
    (whileLoop Thread.going Thread.body fuel ⟨file, total⟩).map Thread.sum =
      addAll? total ((pieces 30 file).map reading) := by
  induction fuel generalizing file total with
  | zero => omega
  | succ fuel ih =>
    by_cases hfile : file = []
    · subst hfile
      rw [whileLoop_exit (Nat.succ_pos fuel) rfl, pieces_nil]
      rfl
    · have hgoing : Thread.going ⟨file, total⟩ = true := by
        rw [Thread.going, fgets_eq hfile]
        rfl
      have hlt : (file.drop (lineOf 31 file).length).length < fuel :=
        Nat.lt_of_lt_of_le (length_drop_lineOf_lt hfile) (Nat.le_of_lt_succ hfuel)
      have hbody : Thread.body ⟨file, total⟩ = (inInt? (reading (lineOf 31 file))).bind fun n =>
          (longLongAdd? total n).bind fun sum => some ⟨file.drop (lineOf 31 file).length, sum⟩ := by
        rw [Thread.body, fgets_eq hfile]
        rfl
      rw [pieces_of_ne_nil hfile, List.map_cons, addAll?]
      cases hint : inInt? (reading (lineOf 31 file)) with
      | none =>
        rw [hint] at hbody
        rw [whileLoop_undefined hgoing hbody]
        rfl
      | some n =>
        simp only [hint, Option.bind_some] at hbody
        simp only [Option.bind_eq_bind, Option.bind_some]
        cases hsum : longLongAdd? total n with
        | none =>
          rw [hsum] at hbody
          rw [whileLoop_undefined hgoing hbody]
          rfl
        | some sum =>
          rw [hsum] at hbody
          rw [whileLoop_step hgoing hbody]
          exact ih hlt

theorem sumFile_eq (file : Bytes) : sumFile file = addAll? 0 ((pieces 30 file).map reading) :=
  loop_eq (Nat.lt_succ_self _)

end OsExercises.SumFile
