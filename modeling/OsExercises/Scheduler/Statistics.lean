import Mathlib.Algebra.BigOperators.Group.List.Basic
import OsExercises.Scheduler.Model

/-!
# What a pass prints

The token loop folds over the words of the string in the buffer (`process_eq`). It ends in a report if
every word is an `int`, no partial sum overflows and no sleep is interrupted.
-/

namespace OsExercises.Scheduler

variable {sleeps : Nat → Bool} {stats : Stats} {ws : List Bytes} {vals : List Int} {val : Int}

/-- The statistics of the integers `vals`. -/
def statsOf (vals : List Int) : Stats :=
  ⟨vals.foldl max INT_MIN, vals.foldl min INT_MAX, vals.sum, vals.length⟩

def SumsFit (vals : List Int) : Prop := ∀ pre, pre <+: vals → INT_MIN ≤ pre.sum ∧ pre.sum ≤ INT_MAX

theorem sumsFit_nil : SumsFit [] := by
  intro pre hpre
  rw [List.prefix_nil.mp hpre]
  decide

theorem sumsFit_concat : SumsFit (vals ++ [val]) ↔
    SumsFit vals ∧ INT_MIN ≤ (vals ++ [val]).sum ∧ (vals ++ [val]).sum ≤ INT_MAX := by
  constructor
  · intro h
    exact ⟨fun pre hpre => h pre (hpre.trans (List.prefix_append _ _)), h _ (List.prefix_refl _)⟩
  · rintro ⟨h, hall⟩ pre hpre
    rcases List.prefix_concat_iff.mp hpre with rfl | hpre
    · exact hall
    · exact h pre hpre

theorem add_statsOf : (statsOf vals).add val = some stats ↔
    (INT_MIN ≤ (vals ++ [val]).sum ∧ (vals ++ [val]).sum ≤ INT_MAX) ∧
      stats = statsOf (vals ++ [val]) := by
  have hmax : ∀ m : Int, (if val > m then val else m) = max m val := by
    intro m
    split_ifs <;> omega
  have hmin : ∀ m : Int, (if val < m then val else m) = min m val := by
    intro m
    split_ifs <;> omega
  have hsum : (vals ++ [val]).sum = vals.sum + val := by simp
  have hstats : statsOf (vals ++ [val]) = ⟨max (vals.foldl max INT_MIN) val,
      min (vals.foldl min INT_MAX) val, vals.sum + val, vals.length + 1⟩ := by simp [statsOf]
  rw [hstats, hsum, Stats.add, statsOf]
  simp only [hmax, hmin, intAdd?]
  split_ifs with hrange
  · simp [hrange, eq_comm]
  · simp [hrange]

/-! ### The loop -/

section Except

variable {σ ε α β : Type*}

theorem bind_eq_ok {x : Except ε α} {f : α → Except ε β} {b : β} :
    x.bind f = .ok b ↔ ∃ a, x = .ok a ∧ f a = .ok b := by
  cases x <;> simp [Except.bind]

theorem foldlM_concat {f : σ → α → Except ε σ} {l : List α} {a : α} {s : σ} :
    (l ++ [a]).foldlM f s = (l.foldlM f s).bind fun s' => f s' a := by
  rw [List.foldlM_append]
  refine congrArg (Except.bind (l.foldlM f s)) (funext fun s' => ?_)
  rw [List.foldlM_cons]
  cases f s' a <;> rfl

end Except

theorem body_eq_ok {st : Stats} {w : Bytes} : body sleeps st w = .ok stats ↔
    (∃ val, atoi? w = some val ∧ st.add val = some stats) ∧ sleeps st.count = true := by
  rw [← Option.bind_eq_some_iff]
  unfold body
  cases (atoi? w).bind st.add with
  | none => simp
  | some stats' =>
    cases hsleep : sleeps st.count with
    | false => simp
    | true => simp

theorem foldlM_body_eq_ok : ws.foldlM (body sleeps) .start = .ok stats ↔
    ∃ vals, ws.map atoi? = vals.map some ∧ SumsFit vals ∧ (∀ k < ws.length, sleeps k = true) ∧
      stats = statsOf vals := by
  induction ws using List.reverseRecOn generalizing stats with
  | nil =>
    constructor
    · intro h
      cases h
      exact ⟨[], rfl, sumsFit_nil, by simp, rfl⟩
    · rintro ⟨vals, hvals, -, -, rfl⟩
      obtain rfl : vals = [] := by simpa using hvals.symm
      rfl
  | append_singleton ws w ih =>
    rw [foldlM_concat, bind_eq_ok]
    constructor
    · rintro ⟨st, hst, hbody⟩
      obtain ⟨vals, hvals, hsums, hsleeps, rfl⟩ := ih.mp hst
      obtain ⟨⟨val, hval, hadd⟩, hsleep⟩ := body_eq_ok.mp hbody
      obtain ⟨hrange, rfl⟩ := add_statsOf.mp hadd
      have hlength : ws.length = vals.length := by simpa using congrArg List.length hvals
      refine ⟨vals ++ [val], by simp [hvals, hval], sumsFit_concat.mpr ⟨hsums, hrange⟩, ?_, rfl⟩
      intro k hk
      rw [List.length_append, List.length_singleton] at hk
      rcases Nat.lt_succ_iff_lt_or_eq.mp hk with hk | rfl
      · exact hsleeps k hk
      · rw [hlength]
        exact hsleep
    · rintro ⟨vals', hvals', hsums, hsleeps, rfl⟩
      rw [List.map_append, List.map_singleton] at hvals'
      obtain ⟨vals, last, rfl, hvals, hlast⟩ := List.map_eq_append_iff.mp hvals'.symm
      obtain ⟨val, rfl, hval⟩ := List.map_eq_singleton_iff.mp hlast
      obtain ⟨hsums, hrange⟩ := sumsFit_concat.mp hsums
      have hlength : ws.length = vals.length := by simpa using congrArg List.length hvals.symm
      refine ⟨statsOf vals, ih.mpr ⟨vals, hvals.symm, hsums, fun k hk => hsleeps k ?_, rfl⟩,
        body_eq_ok.mpr ⟨⟨val, hval.symm, add_statsOf.mpr ⟨hrange, rfl⟩⟩, ?_⟩⟩
      · simp
        omega
      · show sleeps vals.length = true
        rw [← hlength]
        exact hsleeps _ (by simp)

/-! ### A pass -/

variable {msgBuf str rest : Bytes}

theorem process_eq (hstr : NUL ∉ str) (hbuf : msgBuf = str ++ NUL :: rest) :
    process sleeps msgBuf = ((words SPACE str).foldlM (body sleeps) .start).map fun stats =>
      (⟨stats, tokenCount str⟩, terminated SPACE false str ++ NUL :: rest) := by
  have hspace : SPACE ≠ NUL := by decide
  subst hbuf
  have hfuel : str.length < (str ++ NUL :: rest).length + 1 := by
    rw [List.length_append]
    omega
  rw [process, cString?_append hstr]
  simp only
  rw [tokenLoop_eq hspace hstr _ hfuel]
  cases (words SPACE str).foldlM (body sleeps) .start <;> rfl

theorem process_undefined (hbuf : NUL ∉ msgBuf) : process sleeps msgBuf = .error .undefined := by
  rw [process, cString?, if_neg hbuf]

/-- A pass over the string `str` of the buffer, with the integers `vals`, that is not left early. -/
structure Counted (sleeps : Nat → Bool) (msgBuf str rest : Bytes) (vals : List Int) : Prop where
  eq : msgBuf = str ++ NUL :: rest
  notMem : NUL ∉ str
  words : (words SPACE str).map atoi? = vals.map some
  sumsFit : SumsFit vals
  sleeps : ∀ k < (OsExercises.words SPACE str).length, sleeps k = true

theorem Counted.process (h : Counted sleeps msgBuf str rest vals) : process sleeps msgBuf =
    .ok (⟨statsOf vals, tokenCount str⟩, terminated SPACE false str ++ NUL :: rest) := by
  rw [process_eq h.notMem h.eq, foldlM_body_eq_ok.mpr ⟨vals, h.words, h.sumsFit, h.sleeps, rfl⟩]
  rfl

theorem process_eq_ok {r : Report × Bytes} (h : process sleeps msgBuf = .ok r) :
    ∃ str rest vals, Counted sleeps msgBuf str rest vals ∧
      r = (⟨statsOf vals, tokenCount str⟩, terminated SPACE false str ++ NUL :: rest) := by
  by_cases hmem : NUL ∈ msgBuf
  · obtain ⟨str, rest, hbuf, hstr⟩ := List.eq_append_cons_of_mem hmem
    have hprocess := h
    rw [process_eq hstr hbuf] at h
    cases hfold : (words SPACE str).foldlM (body sleeps) .start with
    | error e =>
      rw [hfold] at h
      cases h
    | ok stats =>
      obtain ⟨vals, hvals, hsums, hsleeps, rfl⟩ := foldlM_body_eq_ok.mp hfold
      have hcounted : Counted sleeps msgBuf str rest vals := ⟨hbuf, hstr, hvals, hsums, hsleeps⟩
      exact ⟨str, rest, vals, hcounted, Except.ok.inj (hprocess.symm.trans hcounted.process)⟩
  · rw [process_undefined hmem] at h
    cases h

/-! ### A step of the run -/

variable {p : Pass} {passes : List Pass} {r : Report × Bytes}

theorem main_ok (h : process p.sleeps (p.receive msgBuf) = .ok r) : main msgBuf (p :: passes) =
    if p.shutdown then some [⟨p, p.receive msgBuf, some r.1⟩]
    else (main r.2 passes).map fun log => ⟨p, p.receive msgBuf, some r.1⟩ :: log := by
  rw [main, h]

theorem main_sleep (h : process p.sleeps (p.receive msgBuf) = .error .sleep) :
    main msgBuf (p :: passes) = some [⟨p, p.receive msgBuf, none⟩] := by
  rw [main, h]

theorem main_undefined (h : process p.sleeps (p.receive msgBuf) = .error .undefined) :
    main msgBuf (p :: passes) = none := by
  rw [main, h]

end OsExercises.Scheduler
