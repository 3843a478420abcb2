import Mathlib.Data.Fintype.BigOperators
import OsExercises.Lib.Population
import OsExercises.Lib.Transition

/-!
# Threads that are created and joined in order

`main` creates `n` threads and then joins them one after the other, taking over the result of each.
The threads share nothing, so what they come to does not depend on the schedule: if each of them alone
ends (`Ends`), every run of the program ends after the same number of steps and with the results taken
over in order (`Inv.of_run`, `Inv.exited_of_final`).
-/

namespace OsExercises.ForkJoin
open Transition

/-- `W` is the state of a thread, `A` what `main` has put together. -/
structure Program (n : Nat) (W A : Type*) where
  spawn : Fin n → W
  step : W → Option W
  ended : W → Bool
  /-- What `main` does when a thread has been joined. -/
  collect : Fin n → W → A → Option A
  /-- What `main` does at the end. -/
  conclude : A → A

inductive Main where
  /-- At the condition of the loop that creates the threads. -/
  | creating (i : Nat)
  /-- At the condition of the loop that joins them. -/
  | joining (i : Nat)
  | exited
deriving DecidableEq

structure System (n : Nat) (W A : Type*) where
  main : Main
  threads : Fin n → Option W
  result : A

inductive Event (n : Nat) where
  | main
  | thread (t : Fin n)

variable {n : Nat} {W A : Type*}

def System.start (n : Nat) (W : Type*) (a : A) : System n W A := ⟨.creating 0, fun _ => none, a⟩

namespace Program

variable (p : Program n W A)

def stepMain (σ : System n W A) : Option (System n W A) :=
  match σ.main with
  | .creating i =>
    if h : i < n then
      some ⟨.creating (i + 1), Function.update σ.threads ⟨i, h⟩ (some (p.spawn ⟨i, h⟩)), σ.result⟩
    else some { σ with main := .joining 0 }
  | .joining i =>
    if h : i < n then
      (σ.threads ⟨i, h⟩).bind fun w =>
        if p.ended w then
          (p.collect ⟨i, h⟩ w σ.result).map fun a => ⟨.joining (i + 1), σ.threads, a⟩
        else none
    else some ⟨.exited, σ.threads, p.conclude σ.result⟩
  | .exited => none

def stepThread (σ : System n W A) (t : Fin n) : Option (System n W A) :=
  (σ.threads t).bind fun w =>
    if p.ended w then none
    else (p.step w).map fun w => { σ with threads := Function.update σ.threads t (some w) }

def next (σ : System n W A) : Event n → Option (System n W A)
  | .main => p.stepMain σ
  | .thread t => p.stepThread σ t

/-! ### What a step does -/

inductive Step (σ : System n W A) : System n W A → Prop
  | create {i : Nat} (hm : σ.main = .creating i) (hi : i < n) : Step σ
      ⟨.creating (i + 1), Function.update σ.threads ⟨i, hi⟩ (some (p.spawn ⟨i, hi⟩)), σ.result⟩
  | created {i : Nat} (hm : σ.main = .creating i) (hi : ¬ i < n) : Step σ { σ with main := .joining 0 }
  | join {i : Nat} {w : W} {a : A} (hm : σ.main = .joining i) (hi : i < n)
    (hw : σ.threads ⟨i, hi⟩ = some w) (hended : p.ended w = true)
    (ha : p.collect ⟨i, hi⟩ w σ.result = some a) : Step σ ⟨.joining (i + 1), σ.threads, a⟩
  | exit {i : Nat} (hm : σ.main = .joining i) (hi : ¬ i < n) :
    Step σ ⟨.exited, σ.threads, p.conclude σ.result⟩
  | thread {t : Fin n} {w w' : W} (hw : σ.threads t = some w) (hended : p.ended w = false)
    (hstep : p.step w = some w') : Step σ { σ with threads := Function.update σ.threads t (some w') }

theorem step_cases {σ σ' : System n W A} {e : Event n} (h : p.next σ e = some σ') : p.Step σ σ' := by
  cases e with
  | main =>
    simp only [next, stepMain] at h
    split at h
    · next i hm =>
      split_ifs at h with hi
      · cases h; exact .create hm hi
      · cases h; exact .created hm hi
    · next i hm =>
      split_ifs at h with hi
      · obtain ⟨w, hw, h⟩ := Option.bind_eq_some_iff.mp h
        split_ifs at h with hended
        obtain ⟨a, ha, rfl⟩ := Option.map_eq_some_iff.mp h
        exact .join hm hi hw hended ha
      · cases h; exact .exit hm hi
    · cases h
  | thread t =>
    obtain ⟨w, hw, h⟩ := Option.bind_eq_some_iff.mp h
    split_ifs at h with hended
    obtain ⟨w', hstep, rfl⟩ := Option.map_eq_some_iff.mp h
    exact .thread hw (by simpa using hended) hstep

/-! ### Threads on their own -/

/-- The thread `w` ends after `k` steps as `u`. -/
inductive Ends : W → Nat → W → Prop
  | done {w : W} (h : p.ended w = true) : Ends w 0 w
  | step {w w' u : W} {k : Nat} (h : p.ended w = false) (hs : p.step w = some w') (hk : Ends w' k u) :
    Ends w (k + 1) u

/-- What `main` has after the first `i` joins. -/
def collectFirst (u : Fin n → W) : Nat → A → Option A
  | 0, a => some a
  | i + 1, a => (collectFirst u i a).bind fun b =>
    if h : i < n then p.collect ⟨i, h⟩ (u ⟨i, h⟩) b else none

variable {p} {u : Fin n → W} {a a' b : A} {w w' : W} {i k : Nat}

theorem Ends.eq_of_ended (h : p.Ends w k w') (hended : p.ended w = true) : k = 0 ∧ w = w' := by
  cases h with
  | done => exact ⟨rfl, rfl⟩
  | step h => rw [hended] at h; cases h

theorem Ends.tail (h : p.Ends w k w') (hended : p.ended w = false) {x : W} (hx : p.step w = some x) :
    ∃ j, k = j + 1 ∧ p.Ends x j w' := by
  cases h with
  | done h => rw [hended] at h; cases h
  | step _ hs hk =>
    obtain rfl := Option.some.inj (hs.symm.trans hx)
    exact ⟨_, rfl, hk⟩

theorem collectFirst_succ (hi : i < n) (h : p.collectFirst u i a = some b) :
    p.collectFirst u (i + 1) a = p.collect ⟨i, hi⟩ (u ⟨i, hi⟩) b := by
  rw [collectFirst, h, Option.bind_some, dif_pos hi]

theorem collectFirst_of_le {j : Nat} (hij : i ≤ j) (h : p.collectFirst u j a = some b) :
    ∃ b', p.collectFirst u i a = some b' := by
  induction j generalizing b with
  | zero =>
    obtain rfl := Nat.le_zero.mp hij
    exact ⟨b, h⟩
  | succ j ih =>
    rcases Nat.lt_or_eq_of_le hij with hlt | rfl
    · obtain ⟨c, hc, -⟩ := Option.bind_eq_some_iff.mp h
      exact ih (Nat.le_of_lt_succ hlt) hc
    · exact ⟨b, h⟩

/-! ### The invariant -/

end Program

def Main.created : Main → Nat → Bool
  | .creating i, t => decide (t < i)
  | _, _ => true

/-- The steps that `main` has still to take. -/
def Main.left (n : Nat) : Main → Nat
  | .creating i => n - i + n + 2
  | .joining i => n - i + 1
  | .exited => 0

/-- What `main` has put together, and which threads it has joined. -/
def Main.Sound (p : Program n W A) (u : Fin n → W) (a : A) (left : Fin n → Nat) (result : A) : Main → Prop
  | .creating i => i ≤ n ∧ result = a
  | .joining i => i ≤ n ∧ p.collectFirst u i a = some result ∧ ∀ t : Fin n, t < i → left t = 0
  | .exited => (∃ b, p.collectFirst u n a = some b ∧ result = p.conclude b) ∧ ∀ t, left t = 0

/-- Thread `t` ends as `u t`, in `left t` more steps; at the start these are `total t`. -/
structure Inv (p : Program n W A) (u : Fin n → W) (total : Fin n → Nat) (a : A) (σ : System n W A)
    (left : Fin n → Nat) : Prop where
  created : ∀ t, (σ.threads t).isSome = σ.main.created t
  unborn : ∀ t, σ.threads t = none → left t = total t
  ends : ∀ t w, σ.threads t = some w → p.Ends w (left t) (u t)
  main : σ.main.Sound p u a left σ.result

/-- The steps still to take in all. -/
def System.left (σ : System n W A) (left : Fin n → Nat) : Nat := σ.main.left n + ∑ t, left t

namespace Inv

variable {p : Program n W A} {u : Fin n → W} {total left : Fin n → Nat} {a : A} {σ σ' : System n W A}

theorem start (p : Program n W A) (u : Fin n → W) (total : Fin n → Nat) (a : A) :
    Inv p u total a (System.start n W a) total where
  created _ := rfl
  unborn _ _ := rfl
  ends _ _ h := nomatch h
  main := ⟨Nat.zero_le n, rfl⟩

theorem thread (h : Inv p u total a σ left) {t : Fin n} {w w' : W} (hw : σ.threads t = some w)
    (hended : p.ended w = false) (hstep : p.step w = some w') :
    ∃ left', Inv p u total a { σ with threads := Function.update σ.threads t (some w') } left' ∧
      System.left σ left' + 1 = σ.left left := by
  obtain ⟨j, hj, hends⟩ := (h.ends t w hw).tail hended hstep
  have hsum : ∑ s, Function.update left t j s + left t = ∑ s, left s + j := sum_update left t j
  have hle : ∀ s, left s = 0 → Function.update left t j s = 0 := by
    intro s hs
    by_cases hst : s = t
    · subst hst; omega
    · rw [Function.update_of_ne hst, hs]
  refine ⟨Function.update left t j, ⟨fun s => ?_, fun s hs => ?_, fun s x hx => ?_, ?_⟩, ?_⟩
  · rw [← h.created s]
    by_cases hst : s = t
    · subst hst
      show (Function.update σ.threads s (some w') s).isSome = _
      rw [Function.update_self, hw]
      rfl
    · exact congrArg Option.isSome (Function.update_of_ne hst ..)
  · by_cases hst : s = t
    · subst hst
      cases (Function.update_self s (some w') σ.threads).symm.trans hs
    · rw [Function.update_of_ne hst]
      exact h.unborn s ((Function.update_of_ne hst ..).symm.trans hs)
  · by_cases hst : s = t
    · subst hst
      obtain rfl := Option.some.inj ((Function.update_self s (some w') σ.threads).symm.trans hx)
      rw [Function.update_self]
      exact hends
    · rw [Function.update_of_ne hst]
      exact h.ends s x ((Function.update_of_ne hst ..).symm.trans hx)
  · have hmain := h.main
    show σ.main.Sound p u a _ σ.result
    cases hm : σ.main with
    | creating i => rw [hm] at hmain; exact hmain
    | joining i => rw [hm] at hmain; exact ⟨hmain.1, hmain.2.1, fun s hs => hle s (hmain.2.2 s hs)⟩
    | exited => rw [hm] at hmain; exact ⟨hmain.1, fun s => hle s (hmain.2 s)⟩
  · simp only [System.left]
    omega

theorem step (hspawn : ∀ t, p.Ends (p.spawn t) (total t) (u t)) (h : Inv p u total a σ left) {e : Event n}
    (hs : p.next σ e = some σ') :
    ∃ left', Inv p u total a σ' left' ∧ σ'.left left' + 1 = σ.left left := by
  have hmain := h.main
  cases p.step_cases hs with
  | thread hw hended hstep => exact h.thread hw hended hstep
  | @create i hm hi =>
    have hcreated := h.created
    rw [hm] at hmain
    simp only [hm] at hcreated
    have hnew : σ.threads ⟨i, hi⟩ = none := by
      rw [← Option.not_isSome_iff_eq_none, hcreated]
      simp [Main.created]
    refine ⟨left, ⟨fun t => ?_, fun t ht => ?_, fun t w hw => ?_, hi, hmain.2⟩, ?_⟩
    · by_cases hti : t = ⟨i, hi⟩
      · subst hti
        simp [Main.created]
      · have hne : (t : Nat) ≠ i := fun heq => hti (Fin.ext heq)
        show (Function.update σ.threads ⟨i, hi⟩ _ t).isSome = decide ((t : Nat) < i + 1)
        rw [Function.update_of_ne hti, hcreated]
        exact decide_eq_decide.mpr (by omega)
    · by_cases hti : t = ⟨i, hi⟩
      · subst hti
        cases (Function.update_self _ _ σ.threads).symm.trans ht
      · exact h.unborn t ((Function.update_of_ne hti ..).symm.trans ht)
    · by_cases hti : t = ⟨i, hi⟩
      · subst hti
        obtain rfl := Option.some.inj ((Function.update_self _ _ σ.threads).symm.trans hw)
        rw [h.unborn _ hnew]
        exact hspawn _
      · exact h.ends t w ((Function.update_of_ne hti ..).symm.trans hw)
    · simp only [System.left, hm, Main.left]
      omega
  | @created i hm hi =>
    have hcreated := h.created
    rw [hm] at hmain
    simp only [hm] at hcreated
    refine ⟨left, ⟨fun t => ?_, h.unborn, h.ends, Nat.zero_le n, ?_, nofun⟩, ?_⟩
    · rw [hcreated]
      exact decide_eq_true (Nat.lt_of_lt_of_le t.2 (Nat.le_of_not_lt hi))
    · exact congrArg some hmain.2.symm
    · simp only [System.left, hm, Main.left]
      have := hmain.1
      omega
  | @join i w b hm hi hw hended hb =>
    have hcreated := h.created
    rw [hm] at hmain
    simp only [hm] at hcreated
    obtain ⟨hleft, rfl⟩ := (h.ends _ w hw).eq_of_ended hended
    refine ⟨left, ⟨hcreated, h.unborn, h.ends, hi, ?_, fun t ht => ?_⟩, ?_⟩
    · exact (Program.collectFirst_succ hi hmain.2.1).trans hb
    · rcases Nat.lt_or_eq_of_le (Nat.le_of_lt_succ ht) with hlt | heq
      · exact hmain.2.2 t hlt
      · rwa [show t = ⟨i, hi⟩ from Fin.ext heq]
    · simp only [System.left, hm, Main.left]
      omega
  | @exit i hm hi =>
    have hcreated := h.created
    rw [hm] at hmain
    simp only [hm] at hcreated
    obtain rfl : i = n := Nat.le_antisymm hmain.1 (Nat.le_of_not_lt hi)
    refine ⟨left, ⟨hcreated, h.unborn, h.ends, ⟨σ.result, hmain.2.1, rfl⟩, fun t => hmain.2.2 t t.2⟩, ?_⟩
    simp only [System.left, hm, Main.left]
    omega

theorem of_run (hspawn : ∀ t, p.Ends (p.spawn t) (total t) (u t)) {events : List (Event n)}
    (hr : run p.next (System.start n W a) events = some σ) :
    ∃ left, Inv p u total a σ left ∧ events.length + σ.left left = 2 * n + 2 + ∑ t, total t := by
  have go : ∀ {events σ₀ left₀}, Inv p u total a σ₀ left₀ → run p.next σ₀ events = some σ →
      ∃ left, Inv p u total a σ left ∧ events.length + σ.left left = σ₀.left left₀ := by
    intro events
    induction events with
    | nil =>
      intro σ₀ left₀ h hr
      cases hr
      exact ⟨left₀, h, Nat.zero_add _⟩
    | cons e events ih =>
      intro σ₀ left₀ h hr
      obtain ⟨σ₁, hs, hr⟩ := run_cons_eq_some.mp hr
      obtain ⟨left₁, h₁, hleft₁⟩ := h.step hspawn hs
      obtain ⟨left, hinv, hleft⟩ := ih h₁ hr
      exact ⟨left, hinv, by rw [List.length_cons]; omega⟩
  obtain ⟨left, hinv, hleft⟩ := go (start p u total a) hr
  refine ⟨left, hinv, hleft.trans ?_⟩
  simp only [System.left, System.start, Main.left]
  omega

/-- Nothing is left to do only when `main` has exited. -/
theorem exited_of_final (h : Inv p u total a σ left) {b : A} (hb : p.collectFirst u n a = some b)
    (hfinal : Final p.next σ) : σ.main = .exited := by
  have hstuck : p.stepMain σ = none := hfinal .main
  cases hm : σ.main with
  | exited => rfl
  | creating i =>
    simp only [Program.stepMain, hm] at hstuck
    split_ifs at hstuck
  | joining i =>
    have hmain := h.main
    rw [hm] at hmain
    simp only [Program.stepMain, hm] at hstuck
    split_ifs at hstuck with hi
    have hsome : (σ.threads ⟨i, hi⟩).isSome = true := by rw [h.created, hm]; rfl
    obtain ⟨w, hw⟩ := Option.isSome_iff_exists.mp hsome
    have hends := h.ends _ w hw
    cases hended : p.ended w with
    | true =>
      obtain ⟨-, rfl⟩ := hends.eq_of_ended hended
      obtain ⟨c, hc⟩ := Program.collectFirst_of_le (i := i + 1) hi hb
      rw [Program.collectFirst_succ hi hmain.2.1] at hc
      simp [hw, hended, hc] at hstuck
    | false =>
      have hthread := hfinal (.thread ⟨i, hi⟩)
      generalize left ⟨i, hi⟩ = k at hends
      cases hends with
      | done hd => rw [hended] at hd; cases hd
      | step _ hs _ => simp [Program.next, Program.stepThread, hw, hended, hs] at hthread

end Inv

end OsExercises.ForkJoin
