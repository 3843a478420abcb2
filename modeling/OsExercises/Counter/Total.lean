import OsExercises.Counter.Refinement
import OsExercises.Lib.Population

/-!
# What is printed

Each iteration adds what it adds, in whatever order the iterations come: in the atomic program the counter
is the sum of what the threads have added so far (`Adds`), and through the refinement this holds under the
mutex as well. Every run of either program ends, and it has printed the sum for all iterations unless
`pthread_create` or `pthread_join` failed (`printsTotal`).
-/

namespace OsExercises.Counter
open Transition

/-- What a thread has added after `k` iterations. -/
def added (k : Nat) : Int := if k % 2 = 0 then k else k + 72

theorem added_bounds (k : Nat) : 0 ≤ added k ∧ added k ≤ k + 72 := by
  unfold added
  split <;> omega

theorem added_mono_bound {k m : Nat} (h : k ≤ m) : added k ≤ m + 72 :=
  (added_bounds k).2.trans (by omega)

theorem update?_added {i : Nat} {c : Int} (hmin : INT_MIN ≤ c + (added (i + 1) - added i))
    (hmax : c + (added (i + 1) - added i) ≤ INT_MAX) :
    update? i c = some (c + (added (i + 1) - added i)) := by
  unfold update? added at *
  rcases Nat.mod_two_eq_zero_or_one i with hi | hi
  · have hi' : ¬ (i + 1) % 2 = 0 := by omega
    simp only [hi, if_true, hi', if_false] at *
    exact intAdd?_eq_some (by omega) hmin hmax
  · have hi₀ : ¬ i % 2 = 0 := by omega
    have hi' : (i + 1) % 2 = 0 := by omega
    simp only [hi₀, if_false, hi', if_true] at *
    exact intSub?_eq_some (by omega) hmin hmax

/-- The iterations that the thread has done. -/
def Pc.iterations (m : Nat) : Pc → Nat
  | .unstarted => 0
  | .testing i | .adding i | .locking i | .loading i | .storing i _ => i
  | .unlocking i => i + 1
  | .finished => m

/-- A place of the atomic program that a thread can come to. -/
def Pc.Within (m : Nat) : Pc → Prop
  | .unstarted | .finished => True
  | .testing i => i ≤ m
  | .adding i => i < m
  | _ => False

theorem Pc.Within.iterations_le {m : Nat} {p : Pc} (h : p.Within m) : p.iterations m ≤ m := by
  cases p with
  | unstarted => exact Nat.zero_le m
  | testing i => exact h
  | adding i => exact Nat.le_of_lt h
  | finished => exact Nat.le_refl m
  | locking | loading | storing | unlocking => exact h.elim

/-- The steps that a thread has still to take. -/
def Pc.left (m : Nat) : Pc → Nat
  | .unstarted | .finished => 0
  | .testing i => 5 * (m - i) + 1
  | .locking i | .adding i => 5 * (m - i - 1) + 5
  | .loading i => 5 * (m - i - 1) + 4
  | .storing i _ => 5 * (m - i - 1) + 3
  | .unlocking i => 5 * (m - i - 1) + 2

def Main.left (n m : Nat) : Main → Nat
  | .creating i => (n - i) * (5 * m + 2) + n + 2
  | .joining i => n - i + 1
  | .exited _ _ => 0

namespace System

variable {n : Nat} {v : Variant} {m : Nat} {σ σ' : System n} {e : Event n} {t : Fin n}

/-- What the threads have added so far. -/
def sum (m : Nat) (pc : Fin n → Pc) : Int := ∑ t, added ((pc t).iterations m)

theorem sum_go (pc : Fin n → Pc) (t : Fin n) (p : Pc) : sum m (Function.update pc t p) =
    sum m pc + (added (p.iterations m) - added ((pc t).iterations m)) := by
  have hfun : (fun u => added ((Function.update pc t p u).iterations m)) =
      Function.update (fun u => added ((pc u).iterations m)) t (added (p.iterations m)) := by
    funext u
    exact Function.apply_update (fun _ q => added (Pc.iterations m q)) pc t p u
  have hsum : Finset.univ.sum (Function.update (fun u => added ((pc u).iterations m)) t
      (added (p.iterations m))) + added ((pc t).iterations m) = sum m pc + added (p.iterations m) :=
    sum_update _ t _
  rw [← hfun] at hsum
  unfold sum at hsum ⊢
  omega

theorem sum_bounds {pc : Fin n → Pc} (h : ∀ t, (pc t).Within m) : 0 ≤ sum m pc ∧ sum m pc ≤ n * (m + 72) := by
  refine ⟨Finset.sum_nonneg fun t _ => (added_bounds _).1, ?_⟩
  have hle := Finset.sum_le_card_nsmul Finset.univ (fun t => added ((pc t).iterations m)) (m + 72)
    fun t _ => added_mono_bound (h t).iterations_le
  rw [Finset.card_univ, Fintype.card_fin, nsmul_eq_mul] at hle
  exact hle

/-- The states of the atomic program. -/
structure Adds (m : Nat) (σ : System n) : Prop where
  counter : σ.counter = sum m σ.pc
  within : ∀ t, (σ.pc t).Within m
  printed : ∀ s p, σ.main = .exited s (some p) → p = n * added m

namespace Adds

theorem start (m n : Nat) : Adds m (start n) := by
  refine ⟨?_, fun _ => trivial, fun _ _ => nofun⟩
  show (0 : Int) = ∑ _ : Fin n, added 0
  simp [added]

/-- A step of `t` that adds what it should. -/
theorem go {c : Int} {p : Pc} (h : Adds m σ) (hp : p.Within m) (hm : ∀ s p, σ.main ≠ .exited s p)
    (hc : c = σ.counter + (added (p.iterations m) - added ((σ.pc t).iterations m))) :
    Adds m { σ with counter := c, pc := σ.go t p } := by
  refine ⟨?_, fun u => ?_, fun s x hx => absurd hx (hm s (some x))⟩
  · show c = sum m (Function.update σ.pc t p)
    rw [hc, h.counter, sum_go]
  · show (Function.update σ.pc t p u).Within m
    by_cases hut : u = t
    · subst hut
      rwa [Function.update_self]
    · rw [Function.update_of_ne hut]
      exact h.within u

/-- The next update has a result. -/
theorem update {i : Nat} (h : Adds m σ) (hmax : (n : Int) * (m + 72) ≤ INT_MAX) (hpc : σ.pc t = .adding i) :
    update? i σ.counter = some (σ.counter + (added (i + 1) - added i)) := by
  have hi : i < m := by
    have hwithin := h.within t
    rw [hpc] at hwithin
    exact hwithin
  have hnext : Pc.Within m (.testing (i + 1)) := hi
  have hwithin : ∀ u, (Function.update σ.pc t (.testing (i + 1)) u).Within m := by
    intro u
    by_cases hut : u = t
    · subst hut
      rwa [Function.update_self]
    · rw [Function.update_of_ne hut]
      exact h.within u
  have hsum := sum_bounds hwithin
  rw [sum_go, hpc, ← h.counter] at hsum
  have hneg : INT_MIN ≤ 0 := by decide
  exact update?_added (hneg.trans hsum.1) (hsum.2.trans hmax)

theorem step (hmax : (n : Int) * (m + 72) ≤ INT_MAX) (hok : Ok .atomic σ) (h : Adds m σ)
    (hs : σ.step .atomic m e = some σ') : Adds m σ' := by
  have hwithin : ∀ {t p}, σ.pc t = p → p.Within m := fun hpc => hpc ▸ h.within _
  cases step_cases hs with
  | @create i hm hi =>
    have hnew : σ.pc ⟨i, hi⟩ = .unstarted := (hok.created i hm ⟨i, hi⟩).mpr (Nat.le_refl i)
    have hgo := h.go (t := ⟨i, hi⟩) (p := .testing 0) (Nat.zero_le m) (by rw [hm]; exact fun _ _ => nofun)
      (c := σ.counter) (by rw [hnew]; simp [Pc.iterations])
    exact ⟨hgo.counter, hgo.within, fun _ _ => nofun⟩
  | created hm hi => exact ⟨h.counter, h.within, fun _ _ => nofun⟩
  | join hm hi hpc => exact ⟨h.counter, h.within, fun _ _ => nofun⟩
  | createFails hm hi => exact ⟨h.counter, h.within, fun _ _ => nofun⟩
  | joinFails hm hi hpc => exact ⟨h.counter, h.within, fun _ _ => nofun⟩
  | @print i ok hm hi =>
    refine ⟨h.counter, h.within, ?_⟩
    rintro s p heq
    cases heq
    have hall : ∀ t, σ.pc t = .finished :=
      fun t => (hok.joined i hm).2 t (Nat.lt_of_lt_of_le t.2 (Nat.le_of_not_lt hi))
    rw [h.counter, sum]
    simp [hall, Pc.iterations]
  | enter hm hpc hi => exact h.go hi hm (by rw [hpc]; simp [Pc.iterations, Variant.enter])
  | @finish t i hm hpc hi =>
    have hle : i ≤ m := hwithin hpc
    obtain rfl : i = m := by omega
    exact h.go trivial hm (by rw [hpc]; simp [Pc.iterations])
  | lock hm hpc | load hm hpc | store hm hpc | unlock hm hpc => exact (hwithin hpc).elim
  | @add t i hm hpc =>
    have hi : i < m := hwithin hpc
    refine h.go hi hm ?_
    rw [atomicUpdate_eq (h.update hmax hpc), hpc]
    rfl

end Adds

/-- What holds of the counter in every run of either program. -/
theorem adds_of_run (hmax : (n : Int) * (m + 72) ≤ INT_MAX) {events : List (Event n)}
    (hr : run (step v m) (System.start n) events = some σ) : Adds m σ.view := by
  obtain ⟨-, events', hr'⟩ := view_of_run hr
  exact (run_inv (I := fun σ => Ok .atomic σ ∧ Adds m σ)
    (fun _ _ _ h hs => ⟨h.1.step hs, h.2.step hmax h.1 hs⟩) ⟨Ok.start .atomic n, Adds.start m n⟩ hr').2

/-! ### Every run ends -/

def weight (m : Nat) (σ : System n) : Nat := σ.main.left n m + ∑ t, (σ.pc t).left m

theorem weight_go (c : Int) (mutex : Option (Fin n)) (main : Main) (t : Fin n) (p : Pc) :
    weight m ⟨c, mutex, main, σ.go t p⟩ + (σ.pc t).left m + σ.main.left n m =
      weight m σ + p.left m + main.left n m := by
  have hfun : (fun u => (Function.update σ.pc t p u).left m) =
      Function.update (fun u => (σ.pc u).left m) t (p.left m) := by
    funext u
    exact Function.apply_update (fun _ q => Pc.left m q) σ.pc t p u
  have hsum : Finset.univ.sum (Function.update (fun u => (σ.pc u).left m) t (p.left m)) + (σ.pc t).left m =
      ∑ u, (σ.pc u).left m + p.left m := sum_update _ t _
  rw [← hfun] at hsum
  simp only [weight, System.go]
  omega

theorem weight_thread {c : Int} {mutex : Option (Fin n)} {p : Pc} (h : p.left m < (σ.pc t).left m) :
    weight m ⟨c, mutex, σ.main, σ.go t p⟩ < weight m σ := by
  have hw := weight_go (m := m) (σ := σ) c mutex σ.main t p
  omega

theorem weight_step (hs : σ.step v m e = some σ') : weight m σ' < weight m σ := by
  cases step_cases hs with
  | @create i hm hi =>
    have hw := weight_go (m := m) (σ := σ) σ.counter σ.mutex (.creating (i + 1)) ⟨i, hi⟩ (.testing 0)
    have hmul : (n - i) * (5 * m + 2) = (n - (i + 1)) * (5 * m + 2) + (5 * m + 2) := by
      rw [← Nat.succ_mul]
      congr 1
      omega
    rw [hm] at hw
    simp only [Main.left, Pc.left, hmul] at hw
    omega
  | @created i ok hm hi =>
    simp only [weight, hm, Main.left]
    omega
  | @join i hm hi hpc =>
    simp only [weight, hm, Main.left]
    omega
  | @createFails i hm hi =>
    simp only [weight, hm, Main.left]
    omega
  | @joinFails i hm hi hpc =>
    simp only [weight, hm, Main.left]
    omega
  | @print i ok hm hi =>
    simp only [weight, hm, Main.left]
    omega
  | @enter t i hm hpc hi =>
    have henter : (v.enter i).left m = 5 * (m - i - 1) + 5 := by cases v <;> rfl
    exact weight_thread (by rw [hpc, henter]; simp only [Pc.left]; omega)
  | finish hm hpc hi => exact weight_thread (by rw [hpc]; simp only [Pc.left]; omega)
  | lock hm hpc hfree => exact weight_thread (by rw [hpc]; simp only [Pc.left]; omega)
  | load hm hpc hx => exact weight_thread (by rw [hpc]; simp only [Pc.left]; omega)
  | store hm hpc => exact weight_thread (by rw [hpc]; simp only [Pc.left]; omega)
  | @unlock t i hm hpc => exact weight_thread (by rw [hpc]; simp only [Pc.left]; omega)
  | @add t i hm hpc => exact weight_thread (by rw [hpc]; simp only [Pc.left]; omega)

/-! ### No run gets stuck -/

/-- A thread that has the mutex goes on. -/
theorem Ok.exists_holder_step (h : Ok v σ) (hmax : (n : Int) * (m + 72) ≤ INT_MAX) (hadds : Adds m σ.view)
    (ht : σ.mutex = some t) : ∃ σ', σ.stepThread v m t = some σ' := by
  have hholds := (h.holder t).mp ht
  unfold stepThread
  cases hpc : σ.pc t <;> rw [hpc] at hholds
  case loading i =>
    have hupdate := hadds.update hmax (view_pc hpc)
    exact ⟨_, Option.map_eq_some_iff.mpr ⟨_, hupdate, rfl⟩⟩
  case storing => exact ⟨_, rfl⟩
  case unlocking => exact ⟨_, rfl⟩
  all_goals cases hholds

theorem Ok.exists_thread_step (h : Ok v σ) (hmax : (n : Int) * (m + 72) ≤ INT_MAX) (hadds : Adds m σ.view)
    (hstarted : σ.pc t ≠ .unstarted) (hfinished : σ.pc t ≠ .finished) :
    ∃ u σ', σ.stepThread v m u = some σ' := by
  cases hmutex : σ.mutex with
  | some u =>
    obtain ⟨σ', hs⟩ := h.exists_holder_step hmax hadds hmutex
    exact ⟨u, σ', hs⟩
  | none =>
    have hfree : (σ.pc t).holds = false := by
      by_contra hholds
      have ht := (h.holder t).mpr (by simpa using hholds)
      rw [hmutex] at ht
      cases ht
    refine ⟨t, ?_⟩
    unfold stepThread
    cases hpc : σ.pc t <;> rw [hpc] at hfree
    case unstarted => exact absurd hpc hstarted
    case finished => exact absurd hpc hfinished
    case testing => exact ⟨_, rfl⟩
    case locking => exact ⟨_, if_pos hmutex⟩
    case adding => exact ⟨_, rfl⟩
    all_goals cases hfree

theorem Ok.goesOn (h : Ok v σ) (hmax : (n : Int) * (m + 72) ≤ INT_MAX) (hadds : Adds m σ.view)
    (hmain : ∀ s p, σ.main ≠ .exited s p) : ∃ e, e ≠ .main false ∧ ∃ σ', σ.step v m e = some σ' := by
  cases hm : σ.main with
  | exited s p => exact absurd hm (hmain s p)
  | creating i =>
    refine ⟨.main true, by simp, ?_⟩
    simp only [System.step, stepMain, hm]
    split <;> exact ⟨_, rfl⟩
  | joining i =>
    by_cases hi : i < n
    · by_cases hpc : σ.pc ⟨i, hi⟩ = .finished
      · refine ⟨.main true, by simp, { σ with main := .joining (i + 1) }, ?_⟩
        simp only [System.step, stepMain, hm, dif_pos hi, if_pos hpc, if_true]
      · obtain ⟨u, σ', hs⟩ := h.exists_thread_step hmax hadds ((h.joined i hm).1 ⟨i, hi⟩) hpc
        exact ⟨.thread u, by simp, σ', (step_thread hmain u).trans hs⟩
    · refine ⟨.main true, by simp, { σ with main := .exited v.status (some σ.counter) }, ?_⟩
      simp only [System.step, stepMain, hm, dif_neg hi]

/-! ### The result -/

/-- What `main` returns, and that it prints unless a call of it fails. -/
def Exits (v : Variant) (σ : System n) : Prop := ∀ s p, σ.main = .exited s p → s = v.status ∧ p ≠ none

theorem Exits.start (v : Variant) (n : Nat) : Exits v (start n) := by
  intro s p hm
  cases hm

theorem Exits.step (h : Exits v σ) (he : e ≠ .main false) (hs : σ.step v m e = some σ') : Exits v σ' := by
  cases step_cases hs with
  | createFails | joinFails => exact absurd rfl he
  | print =>
    rintro s p heq
    cases heq
    exact ⟨rfl, nofun⟩
  | create | created | join => exact fun _ _ => nofun
  | enter | finish | lock | load | store | unlock | add => exact h

/-- A run of one of the two programs with `n` threads that make `m` iterations each. -/
structure Prints (v : Variant) (m : Nat) (events : List (Event n)) (σ : System n) : Prop where
  ends : events.length ≤ n * (5 * m + 2) + n + 2
  printed : ∀ s p, σ.main = .exited s (some p) → p = n * added m
  completes : Final (System.step v m) σ → .main false ∉ events → σ.main = .exited v.status (some (n * added m))

theorem printsTotal (v : Variant) (n m : Nat) (hmax : (n : Int) * (m + 72) ≤ INT_MAX) (events : List (Event n))
    (σ : System n) (hr : run (System.step v m) (System.start n) events = some σ) : Prints v m events σ := by
  obtain ⟨hok, -⟩ := view_of_run hr
  have hadds := adds_of_run hmax hr
  have hprinted : ∀ s p, σ.main = .exited s (some p) → p = n * added m := by
    intro s p hm
    exact hadds.printed EXIT_SUCCESS p (congrArg Main.view hm)
  refine ⟨?_, hprinted, fun hfinal hfalse => ?_⟩
  · have hle : events.length + weight m σ ≤ weight m (System.start n) :=
      run_length_le (I := fun _ => True) (fun _ _ _ _ _ => trivial) (fun _ _ _ _ hs => weight_step hs) trivial hr
    have hstart : weight m (System.start n) = n * (5 * m + 2) + n + 2 := by
      simp [weight, System.start, Main.left, Pc.left]
    omega
  · have hmeets : Meets (System.step v m) (fun _ e => e ≠ .main false) (System.start n) events := by
      rintro pre e hp - - rfl
      exact hfalse (hp.subset (List.mem_append_right pre List.mem_cons_self))
    have hexits : Exits v σ := run_inv_of_meets (fun _ _ _ h he hs => h.step he hs) (Exits.start v n) hmeets hr
    cases hm : σ.main with
    | exited s p =>
      obtain ⟨rfl, hp⟩ := hexits s p hm
      obtain ⟨x, rfl⟩ := Option.ne_none_iff_exists'.mp hp
      rw [hprinted _ x hm]
    | creating i | joining i =>
      obtain ⟨e, -, σ', hs⟩ := hok.goesOn hmax hadds (by simp [hm])
      rw [hfinal e] at hs
      cases hs

example : (NUM_THREADS : Int) * added ITERATIONS = 25000000 := by decide

/-- Two threads with one iteration each, which compete for the mutex. -/
def compete (a b : Fin 2) : List (Event 2) :=
  [.main true, .main true, .main true, .thread b, .thread b, .thread a, .thread b, .thread b, .thread b,
    .thread a, .thread b, .thread a, .thread a, .thread a, .thread a, .main true, .main true, .main true]

theorem printsTotal_compete : ∃ σ, run (System.step .mutex 1) (System.start 2) (compete 0 1) = some σ ∧
    σ.main = .exited EXIT_FAILURE (some 146) ∧ Prints .mutex 1 (compete 0 1) σ := by
  have heval : (run (System.step .mutex 1) (System.start 2) (compete 0 1)).map (fun σ => σ.main) =
      some (.exited EXIT_FAILURE (some 146)) := by decide +kernel
  obtain ⟨σ, hr, hm⟩ := Option.map_eq_some_iff.mp heval
  exact ⟨σ, hr, hm, printsTotal .mutex 2 1 (by decide) (compete 0 1) σ hr⟩

end System
end OsExercises.Counter
