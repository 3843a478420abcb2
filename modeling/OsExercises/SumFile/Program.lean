import OsExercises.Lib.ForkJoin
import OsExercises.SumFile.Model

/-!
# One thread for each file

`main` of `src/exercise03/task_3/task_3b.c` and its threads under any scheduler: a thread for each
argument, which reads its file piece by piece, and a `main` that joins them in order, prints what each has
come to and adds it up. `pthread_create` and `pthread_join` are taken to succeed. What is printed does not
depend on the schedule: it is what `sumFile` gives, file by file (`printsSums`).
-/

namespace OsExercises.SumFile
open ForkJoin Transition

/-! ### The code -/

/-- Where a thread is in `sum_file`. -/
inductive Pc where
  /-- Before `fopen`; `none` if the file cannot be opened. -/
  | opening (file : Option Bytes)
  /-- At the condition of the loop. -/
  | reading (file : Bytes)
  | returned
deriving DecidableEq

/-- `sum_thread_t` -/
structure SumThread where
  pc : Pc
  sum : Int
deriving DecidableEq

/-- As `main` leaves it before `pthread_create`. -/
def SumThread.start (file : Option Bytes) : SumThread := ⟨.opening file, 0⟩

def SumThread.step (x : SumThread) : Option SumThread :=
  match x.pc with
  | .opening none => some { x with pc := .returned }
  | .opening (some file) => some ⟨.reading file, 0⟩
  | .reading file =>
    if Thread.going ⟨file, x.sum⟩ then
      (Thread.body ⟨file, x.sum⟩).map fun y => ⟨.reading y.file, y.sum⟩
    else some { x with pc := .returned }
  | .returned => none

/-- A line of the output. -/
inductive Printed where
  /-- `sum %d = %lld` -/
  | sum (id : Nat) (v : Int)
  /-- `total sum = %lld` -/
  | total (v : Int)
deriving DecidableEq

/-- The local variables of `main` and its output. -/
structure Totals where
  total_sum : Int
  output : List Printed
deriving DecidableEq

def program (files : List (Option Bytes)) : Program files.length SumThread Totals where
  spawn t := .start (files.get t)
  step := SumThread.step
  ended x := x.pc = .returned
  collect t x a := (longLongAdd? a.total_sum x.sum).map fun total => ⟨total, a.output ++ [.sum t x.sum]⟩
  conclude a := { a with output := a.output ++ [.total a.total_sum] }

abbrev System (files : List (Option Bytes)) := ForkJoin.System files.length SumThread Totals

def start (files : List (Option Bytes)) : System files := .start files.length SumThread ⟨0, []⟩

/-! ### A thread on its own -/

/-- What a thread leaves in `sum`. -/
def fileSum : Option Bytes → Option Int
  | none => some 0
  | some file => sumFile file

/-- The steps of a thread: it opens the file, reads the pieces and sees the end. -/
def steps : Option Bytes → Nat
  | none => 1
  | some file => (pieces 30 file).length + 2

variable {files : List (Option Bytes)} {file : Bytes} {total v : Int} {vs : List Int}

theorem ends_reading (h : addAll? total ((pieces 30 file).map reading) = some v) :
    (program files).Ends ⟨.reading file, total⟩ ((pieces 30 file).length + 1) ⟨.returned, v⟩ := by
  induction hlen : file.length using Nat.strong_induction_on generalizing file total with
  | _ len ih =>
  by_cases hfile : file = []
  · subst hfile
    rw [pieces_nil, List.map_nil] at h
    cases h
    rw [pieces_nil]
    exact .step rfl rfl (.done rfl)
  · rw [pieces_of_ne_nil hfile, List.map_cons, addAll?] at h
    obtain ⟨n, hn, h⟩ := Option.bind_eq_some_iff.mp h
    obtain ⟨sum, hsum, h⟩ := Option.bind_eq_some_iff.mp h
    have hgoing : Thread.going ⟨file, total⟩ = true := by
      rw [Thread.going, fgets_eq hfile]
      rfl
    have hbody : Thread.body ⟨file, total⟩ = some ⟨file.drop (lineOf 31 file).length, sum⟩ := by
      simp only [Thread.body, fgets_eq hfile, atoi?_eq, hn, hsum, Option.bind_eq_bind, Option.bind_some]
    have hlt := length_drop_lineOf_lt (n := 30) hfile
    rw [pieces_of_ne_nil hfile, List.length_cons]
    have hstep : SumThread.step ⟨.reading file, total⟩ =
        some ⟨.reading (file.drop (lineOf 31 file).length), sum⟩ := by
      simp only [SumThread.step, hgoing, hbody, if_true, Option.map_some]
    exact .step rfl hstep (ih _ (hlen ▸ hlt) h rfl)

theorem ends_start {f : Option Bytes} (h : fileSum f = some v) :
    (program files).Ends (.start f) (steps f) ⟨.returned, v⟩ := by
  cases f with
  | none =>
    cases h
    exact .step rfl rfl (.done rfl)
  | some file => exact .step rfl rfl (ends_reading ((sumFile_eq file).symm.trans h))

/-! ### What is printed -/

/-- The lines for the first threads. -/
def sumLines (vs : List Int) : List Printed := vs.zipIdx.map fun x => .sum x.2 x.1

def lines (vs : List Int) : List Printed := sumLines vs ++ [.total vs.sum]

theorem sumLines_concat (vs : List Int) (v : Int) : sumLines (vs ++ [v]) = sumLines vs ++ [.sum vs.length v] := by
  simp [sumLines, List.zipIdx_append]

/-- The threads as they have ended. -/
def returned (hlen : files.length = vs.length) (t : Fin files.length) : SumThread :=
  ⟨.returned, vs.get (t.cast hlen)⟩

theorem collectFirst_eq (hlen : files.length = vs.length) (htotals : ∀ us, us <+: vs → InLongLong us.sum)
    (i : Nat) (hi : i ≤ vs.length) : (program files).collectFirst (returned hlen) i ⟨0, []⟩ =
      some ⟨(vs.take i).sum, sumLines (vs.take i)⟩ := by
  induction i with
  | zero => rfl
  | succ i ih =>
    have hlt : i < vs.length := hi
    have htake : vs.take (i + 1) = vs.take i ++ [vs[i]] := List.take_succ_eq_append_getElem hlt
    have hin : InLongLong ((vs.take i).sum + vs[i]) := by
      have h := htotals _ (List.take_prefix (i + 1) vs)
      rwa [htake, List.sum_append, List.sum_singleton] at h
    rw [Program.collectFirst_succ (hlen ▸ hlt) (ih (Nat.le_of_lt hlt))]
    show (longLongAdd? _ vs[i]).map _ = _
    rw [longLongAdd?_of_in hin, htake, List.sum_append, List.sum_singleton, sumLines_concat,
      List.length_take_of_le (Nat.le_of_lt hlt)]
    rfl

/-- What a run with the sums `vs` has come to: it is not longer than all runs that are complete, it has
printed some of the lines, and if it cannot go on, all of them. -/
structure Prints (files : List (Option Bytes)) (vs : List Int) (events : List (Event files.length))
    (σ : System files) : Prop where
  ends : events.length ≤ 2 * files.length + 2 + (files.map steps).sum
  printed : σ.result.output <+: lines vs
  completes : Final (program files).next σ → σ.main = .exited ∧ σ.result.output = lines vs ∧
    events.length = 2 * files.length + 2 + (files.map steps).sum

theorem sumLines_prefix {us : List Int} (h : us <+: vs) : sumLines us <+: lines vs := by
  obtain ⟨ws, rfl⟩ := h
  rw [sumLines, lines, sumLines, List.zipIdx_append, List.map_append, List.append_assoc]
  exact List.prefix_append _ _

theorem printsSums (files : List (Option Bytes)) (vs : List Int) (hfiles : files.map fileSum = vs.map some)
    (htotals : ∀ us, us <+: vs → InLongLong us.sum) (events : List (Event files.length)) (σ : System files)
    (hr : run (program files).next (start files) events = some σ) : Prints files vs events σ := by
  have hlen : files.length = vs.length := by
    have h := congrArg List.length hfiles
    rwa [List.length_map, List.length_map] at h
  have hspawn : ∀ t, (program files).Ends ((program files).spawn t) (steps (files.get t))
      (returned hlen t) := by
    intro t
    refine ends_start (Option.some.inj ?_)
    have h := congrArg (fun l => l[(t : Nat)]?) hfiles
    simp only [List.getElem?_map, List.getElem?_eq_getElem t.2,
      List.getElem?_eq_getElem (Nat.lt_of_lt_of_eq t.2 hlen), Option.map_some] at h
    exact h
  have hcollect := collectFirst_eq hlen htotals
  have htotal : ∑ t, steps (files.get t) = (files.map steps).sum := Fin.sum_univ_fun_getElem files steps
  obtain ⟨left, hinv, hleft⟩ := Inv.of_run hspawn hr
  rw [htotal] at hleft
  have hall : (program files).collectFirst (returned hlen) files.length ⟨0, []⟩ = some ⟨vs.sum, sumLines vs⟩ := by
    rw [hcollect files.length (Nat.le_of_eq hlen), hlen, List.take_length]
  have hexited : σ.main = .exited → σ.result.output = lines vs := by
    intro hm
    have hmain := hinv.main
    rw [hm] at hmain
    obtain ⟨⟨b, hb, hresult⟩, -⟩ := hmain
    obtain rfl := Option.some.inj (hall.symm.trans hb)
    rw [hresult]
    rfl
  refine ⟨by omega, ?_, fun hfinal => ?_⟩
  · have hmain := hinv.main
    cases hm : σ.main with
    | creating i =>
      rw [hm] at hmain
      rw [hmain.2]
      exact List.nil_prefix
    | joining i =>
      rw [hm] at hmain
      rw [← Option.some.inj ((hcollect i (hlen ▸ hmain.1)).symm.trans hmain.2.1)]
      exact sumLines_prefix (List.take_prefix i vs)
    | exited => rw [hexited hm]
  · have hm := hinv.exited_of_final hall hfinal
    have hmain := hinv.main
    rw [hm] at hmain
    refine ⟨hm, hexited hm, ?_⟩
    have hzero : ∑ t, left t = 0 := Finset.sum_eq_zero fun t _ => hmain.2 t
    simp only [System.left, hm, Main.left] at hleft
    omega

/-- A file with the lines 12 and 30, and one that cannot be opened; the second thread is done first. -/
def twoFiles : List (Option Bytes) := [some [49, 50, 10, 51, 48], none]

def secondFirst (a b : Fin 2) : List (Event 2) :=
  [.main, .main, .thread b, .thread a, .main, .thread a, .thread a, .thread a, .main, .main, .main]

theorem printsSums_twoFiles : ∃ σ, run (program twoFiles).next (start twoFiles) (secondFirst 0 1) = some σ ∧
    σ.main = .exited ∧ σ.result.output = [.sum 0 42, .sum 1 0, .total 42] ∧
    Prints twoFiles [42, 0] (secondFirst 0 1) σ := by
  have heval : (run (program twoFiles).next (start twoFiles) (secondFirst 0 1)).map
      (fun σ => (σ.main, σ.result.output)) = some (.exited, [.sum 0 42, .sum 1 0, .total 42]) := by
    decide +kernel
  obtain ⟨σ, hr, hσ⟩ := Option.map_eq_some_iff.mp heval
  obtain ⟨hmain, houtput⟩ := Prod.mk.inj hσ
  refine ⟨σ, hr, hmain, houtput,
    printsSums twoFiles [42, 0] (by decide +kernel) (fun us hus => ?_) (secondFirst 0 1) σ hr⟩
  have hmem : us ∈ ([[], [42], [42, 0]] : List (List Int)) := (List.mem_inits us [42, 0]).mpr hus
  simp only [List.mem_cons, List.not_mem_nil, or_false] at hmem
  rcases hmem with rfl | rfl | rfl
  · exact inLongLong_zero
  · exact ⟨by decide, by decide⟩
  · exact ⟨by decide, by decide⟩

end OsExercises.SumFile
