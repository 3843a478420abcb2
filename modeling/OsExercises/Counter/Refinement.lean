import OsExercises.Counter.Model
import OsExercises.Lib.Simulation

/-!
# Under the mutex an update is one step

Seen from outside (`Pc.view`) a thread that has the mutex is still before its update until it has written
the counter. `Exclusive` says that what it has computed is still right then, so that the program with the
mutex does what the atomic one does (`atomicBehaviour`).
-/

namespace OsExercises.Counter
open Transition

/-- What the thread is about to do in the program with the atomic operations. -/
def Pc.view : Pc → Pc
  | .locking i | .loading i | .storing i _ => .adding i
  | .unlocking i => .testing (i + 1)
  | p => p

/-- The place is one of the program. -/
def Pc.occursIn : Variant → Pc → Bool
  | .mutex, .adding _ => false
  | .atomic, .locking _ | .atomic, .loading _ | .atomic, .storing _ _ | .atomic, .unlocking _ => false
  | _, _ => true

/-- The two programs return different values after they have printed. -/
def Main.view : Main → Main
  | .exited _ (some p) => .exited EXIT_SUCCESS (some p)
  | m => m

namespace System

variable {n : Nat}

def view (σ : System n) : System n := ⟨σ.counter, none, σ.main.view, fun t => (σ.pc t).view⟩

/-- Only the thread that has the mutex is between its read and its write. -/
structure Ok (v : Variant) (σ : System n) : Prop where
  variant : ∀ t, (σ.pc t).occursIn v = true
  holder : Holder Pc.holds σ.mutex σ.pc
  stored : ∀ t i x, σ.pc t = .storing i x → update? i σ.counter = some x
  created : ∀ i, σ.main = .creating i → ∀ t : Fin n, σ.pc t = .unstarted ↔ i ≤ t
  joined : ∀ i, σ.main = .joining i → (∀ t, σ.pc t ≠ .unstarted) ∧ ∀ t : Fin n, t < i → σ.pc t = .finished

variable {v : Variant} {m : Nat} {σ σ' : System n} {e : Event n} {t : Fin n}

namespace Ok

theorem start (v : Variant) (n : Nat) : Ok v (start n) := by
  refine ⟨fun _ => by cases v <;> rfl, fun t => by simp [System.start, Pc.holds], fun _ _ _ => nofun, ?_, fun _ => nofun⟩
  intro i hi t
  cases hi
  exact iff_of_true rfl (Nat.zero_le _)

/-- A step of `t` that does not write the counter while another thread has the mutex. -/
theorem moved {p : Pc} {c : Int} {mutex : Option (Fin n)} (h : Ok v σ)
    (hvariant : p.occursIn v = true) (hholder : Holder Pc.holds mutex (σ.go t p))
    (hothers : c = σ.counter ∨ ∀ u, u ≠ t → (σ.pc u).holds = false)
    (ht : ∀ i x, p = .storing i x → update? i c = some x) (hstarted : σ.pc t ≠ .unstarted)
    (hfinished : σ.pc t ≠ .finished) (hp : p ≠ .unstarted) : Ok v ⟨c, mutex, σ.main, σ.go t p⟩ := by
  refine ⟨fun u => ?_, hholder, fun u i x hu => ?_, fun i hi u => ?_, fun i hi => ⟨fun u => ?_, fun u hu => ?_⟩⟩
  · show (Function.update σ.pc t p u).occursIn v = true
    by_cases hut : u = t
    · subst hut
      rwa [Function.update_self]
    · rw [Function.update_of_ne hut]
      exact h.variant u
  · by_cases hut : u = t
    · subst hut
      exact ht i x ((Function.update_self ..).symm.trans hu)
    · have hpc : σ.pc u = .storing i x := (Function.update_of_ne hut ..).symm.trans hu
      rcases hothers with rfl | hothers
      · exact h.stored u i x hpc
      · have hfalse := hothers u hut
        rw [hpc] at hfalse
        cases hfalse
  · show Function.update σ.pc t p u = .unstarted ↔ _
    rw [← h.created i hi u]
    by_cases hut : u = t
    · subst hut
      rw [Function.update_self]
      exact iff_of_false hp hstarted
    · rw [Function.update_of_ne hut]
  · show Function.update σ.pc t p u ≠ .unstarted
    by_cases hut : u = t
    · subst hut
      rwa [Function.update_self]
    · rw [Function.update_of_ne hut]
      exact (h.joined i hi).1 u
  · show Function.update σ.pc t p u = .finished
    have hut : u ≠ t := by
      rintro rfl
      exact hfinished ((h.joined i hi).2 u hu)
    rw [Function.update_of_ne hut]
    exact (h.joined i hi).2 u hu

/-- A step of `t` outside of the critical section, or within it. -/
theorem go {p : Pc} (h : Ok v σ) (hvariant : p.occursIn v = true)
    (hpc : σ.pc t ≠ .unstarted ∧ σ.pc t ≠ .finished)
    (hholds : p.holds = (σ.pc t).holds) (ht : ∀ i x, p = .storing i x → update? i σ.counter = some x)
    (hp : p ≠ .unstarted) : Ok v { σ with pc := σ.go t p } :=
  h.moved hvariant (h.holder.move hholds) (.inl rfl) ht hpc.1 hpc.2 hp

theorem create {i : Nat} (h : Ok v σ) (hm : σ.main = .creating i) (hi : i < n) :
    Ok v { σ with pc := σ.go ⟨i, hi⟩ (.testing 0), main := .creating (i + 1) } := by
  have hnew : σ.pc ⟨i, hi⟩ = .unstarted := (h.created i hm ⟨i, hi⟩).mpr (Nat.le_refl i)
  refine ⟨fun u => ?_, h.holder.move (by rw [hnew]; rfl), fun u j x hu => ?_, fun j hj u => ?_, fun _ => nofun⟩
  · show (Function.update σ.pc _ _ u).occursIn v = true
    by_cases hut : u = ⟨i, hi⟩
    · subst hut
      rw [Function.update_self]
      cases v <;> rfl
    · rw [Function.update_of_ne hut]
      exact h.variant u
  · by_cases hut : u = ⟨i, hi⟩
    · subst hut
      exact nomatch (Function.update_self ..).symm.trans hu
    · exact h.stored u j x ((Function.update_of_ne hut ..).symm.trans hu)
  · cases hj
    show Function.update σ.pc _ _ u = _ ↔ _
    by_cases hut : u = ⟨i, hi⟩
    · subst hut
      rw [Function.update_self]
      exact iff_of_false nofun (Nat.not_succ_le_self i)
    · rw [Function.update_of_ne hut, h.created i hm u]
      have hne : u.1 ≠ i := fun heq => hut (Fin.ext heq)
      omega

theorem step (h : Ok v σ) (hs : σ.step v m e = some σ') : Ok v σ' := by
  have hmutex : ∀ {t p}, σ.pc t = p → p.occursIn .atomic = false → v = .mutex := by
    intro t p hpc hp
    have hvariant := h.variant t
    rw [hpc] at hvariant
    cases v
    · rfl
    · rw [hp] at hvariant
      cases hvariant
  cases step_cases hs with
  | create hm hi => exact h.create hm hi
  | @created i ok hm hi =>
    refine ⟨h.variant, h.holder, h.stored, fun _ => nofun, fun j hj => ?_⟩
    cases hj
    refine ⟨fun t ht => ?_, fun t ht => absurd ht (Nat.not_lt_zero _)⟩
    have hit := (h.created i hm t).mp ht
    have htn := t.2
    omega
  | @join i hm hi hpc =>
    refine ⟨h.variant, h.holder, h.stored, fun _ => nofun, fun j hj => ?_⟩
    cases hj
    obtain ⟨hstarted, hfinished⟩ := h.joined i hm
    refine ⟨hstarted, fun t ht => ?_⟩
    rcases Nat.lt_succ_iff_lt_or_eq.mp ht with hlt | heq
    · exact hfinished t hlt
    · rw [Fin.ext (b := ⟨i, hi⟩) heq]
      exact hpc
  | createFails hm hi => exact ⟨h.variant, h.holder, h.stored, fun _ => nofun, fun _ => nofun⟩
  | joinFails hm hi hpc => exact ⟨h.variant, h.holder, h.stored, fun _ => nofun, fun _ => nofun⟩
  | print hm hi => exact ⟨h.variant, h.holder, h.stored, fun _ => nofun, fun _ => nofun⟩
  | @enter t i hm hpc hi =>
    have hold : σ.pc t ≠ .unstarted ∧ σ.pc t ≠ .finished := by rw [hpc]; exact ⟨nofun, nofun⟩
    cases v with
    | mutex => exact h.go rfl hold (by rw [hpc]; rfl) nofun nofun
    | atomic => exact h.go rfl hold (by rw [hpc]; rfl) nofun nofun
  | finish hm hpc hi =>
    exact h.go (by cases v <;> rfl) (by rw [hpc]; exact ⟨nofun, nofun⟩) (by rw [hpc]; rfl) nofun nofun
  | @lock t i hm hpc hfree =>
    obtain rfl := hmutex hpc rfl
    have hholder := h.holder
    rw [hfree] at hholder
    exact h.moved rfl (hholder.acquire rfl) (.inl rfl) nofun (by rw [hpc]; nofun) (by rw [hpc]; nofun) nofun
  | load hm hpc hx =>
    obtain rfl := hmutex hpc rfl
    refine h.go rfl (by rw [hpc]; exact ⟨nofun, nofun⟩) (by rw [hpc]; rfl) ?_ nofun
    rintro i x heq
    cases heq
    exact hx
  | @store t i x hm hpc =>
    obtain rfl := hmutex hpc rfl
    have hall : ∀ u, u ≠ t → (σ.pc u).holds = false := by
      intro u hut
      by_contra hu
      exact hut (h.holder.unique (by simpa using hu) (by rw [hpc]; rfl))
    exact h.moved rfl (h.holder.move (by rw [hpc]; rfl)) (.inr hall) nofun (by rw [hpc]; nofun)
      (by rw [hpc]; nofun) nofun
  | @unlock t i hm hpc =>
    obtain rfl := hmutex hpc rfl
    exact h.moved rfl (h.holder.release (by rw [hpc]; rfl) rfl) (.inl rfl) nofun (by rw [hpc]; nofun)
      (by rw [hpc]; nofun) nofun
  | @add t i hm hpc =>
    have hvariant := h.variant t
    rw [hpc] at hvariant
    cases v with
    | mutex => cases hvariant
    | atomic =>
      have hall : ∀ u, u ≠ t → (σ.pc u).holds = false := by
        intro u _
        have hu := h.variant u
        cases hp : σ.pc u <;> rw [hp] at hu <;> first | rfl | cases hu
      exact h.moved rfl (h.holder.move (by rw [hpc]; rfl)) (.inr hall) nofun (by rw [hpc]; nofun)
        (by rw [hpc]; nofun) nofun

end Ok

/-! ### The refinement -/

theorem view_go {c : Int} {mutex : Option (Fin n)} {main : Main} (p : Pc) :
    view ⟨c, mutex, main, σ.go t p⟩ = ⟨c, none, main.view, σ.view.go t p.view⟩ := by
  refine congrArg (System.mk c none main.view) (funext fun u => ?_)
  exact Function.apply_update (fun _ q => Pc.view q) σ.pc t p u

theorem view_main (hm : ∀ s p, σ.main ≠ .exited s p) : σ.main.view = σ.main := by
  cases hmain : σ.main with
  | exited s p => exact absurd hmain (hm s p)
  | creating | joining => rfl

theorem view_pc {p : Pc} (hpc : σ.pc t = p) : σ.view.pc t = p.view := congrArg Pc.view hpc

/-- A step within the update is not seen. -/
theorem view_same {c : Int} {mutex : Option (Fin n)} {p : Pc} (hc : c = σ.counter)
    (hpc : p.view = (σ.pc t).view) : view ⟨c, mutex, σ.main, σ.go t p⟩ = σ.view := by
  have hsame : σ.view.go t p.view = σ.view.pc := by
    rw [System.go, hpc]
    exact Function.update_eq_self ..
  rw [view_go, hsame, hc]
  rfl

/-- A step of a thread that the atomic program takes as well. -/
theorem view_thread {c : Int} {mutex : Option (Fin n)} {p : Pc} (hm : ∀ s p, σ.main ≠ .exited s p)
    (hs : σ.view.stepThread .atomic m t = some { σ.view with counter := c, pc := σ.view.go t p.view }) :
    Reaches (step .atomic m) σ.view (view ⟨c, mutex, σ.main, σ.go t p⟩) := by
  have hmain : ∀ s p, σ.view.main ≠ .exited s p := by
    show ∀ s p, σ.main.view ≠ .exited s p
    rw [view_main hm]
    exact hm
  rw [view_go]
  exact .single (b := .thread t) ((step_thread hmain t).trans hs)

theorem atomicUpdate_eq {i : Nat} {c x : Int} (h : update? i c = some x) : atomicUpdate i c = x := by
  unfold update? at h
  unfold atomicUpdate
  by_cases hi : i % 2 = 0
  · rw [if_pos hi] at h ⊢
    unfold intAdd? at h
    split at h <;> cases h
    next hmem => exact toInt_of_mem hmem.1 hmem.2
  · rw [if_neg hi] at h ⊢
    unfold intSub? at h
    split at h <;> cases h
    next hmem => exact toInt_of_mem hmem.1 hmem.2

theorem view_step (h : Ok v σ) (hs : σ.step v m e = some σ') : Reaches (step .atomic m) σ.view σ'.view := by
  cases step_cases hs with
  | @create i hm hi =>
    have hmain : σ.view.main = .creating i := congrArg Main.view hm
    rw [view_go]
    refine .single (b := .main true) ?_
    simp only [step, stepMain, hmain, dif_pos hi, if_true]
    rfl
  | @created i ok hm hi =>
    have hmain : σ.view.main = .creating i := congrArg Main.view hm
    refine .single (b := .main ok) ?_
    simp only [step, stepMain, hmain, dif_neg hi]
    rfl
  | @join i hm hi hpc =>
    have hmain : σ.view.main = .joining i := congrArg Main.view hm
    refine .single (b := .main true) ?_
    have hfinished : σ.view.pc ⟨i, hi⟩ = .finished := view_pc hpc
    simp only [step, stepMain, hmain, dif_pos hi, if_pos hfinished, if_true]
    rfl
  | @createFails i hm hi =>
    have hmain : σ.view.main = .creating i := congrArg Main.view hm
    refine .single (b := .main false) ?_
    simp only [step, stepMain, hmain, dif_pos hi]
    rfl
  | @joinFails i hm hi hpc =>
    have hmain : σ.view.main = .joining i := congrArg Main.view hm
    have hfinished : σ.view.pc ⟨i, hi⟩ = .finished := view_pc hpc
    refine .single (b := .main false) ?_
    simp only [step, stepMain, hmain, dif_pos hi, if_pos hfinished]
    rfl
  | @print i ok hm hi =>
    have hmain : σ.view.main = .joining i := congrArg Main.view hm
    refine .single (b := .main ok) ?_
    simp only [step, stepMain, hmain, dif_neg hi]
    rfl
  | @enter t i hm hpc hi =>
    refine view_thread hm ?_
    simp only [stepThread, view_pc hpc, Pc.view, if_pos hi]
    cases v <;> rfl
  | @finish t i hm hpc hi =>
    refine view_thread hm ?_
    simp only [stepThread, view_pc hpc, Pc.view, if_neg hi]
    rfl
  | lock hm hpc hfree =>
    rw [view_same rfl (by rw [hpc]; rfl)]
    exact .refl
  | load hm hpc hx =>
    rw [view_same rfl (by rw [hpc]; rfl)]
    exact .refl
  | unlock hm hpc =>
    rw [view_same rfl (by rw [hpc]; rfl)]
    exact .refl
  | @store t i x hm hpc =>
    refine view_thread hm ?_
    simp only [stepThread, view_pc hpc, Pc.view]
    have hx : atomicUpdate i σ.view.counter = x := atomicUpdate_eq (h.stored t i x hpc)
    rw [hx]
  | @add t i hm hpc =>
    refine view_thread hm ?_
    simp only [stepThread, view_pc hpc, Pc.view]
    rfl

theorem view_of_run {events : List (Event n)} (hr : run (step v m) (System.start n) events = some σ) :
    Ok v σ ∧ Reaches (step .atomic m) (System.start n) σ.view := by
  obtain ⟨τ, hreach, hok, rfl⟩ := reaches_of_simulation (R := fun σ τ => Ok v σ ∧ σ.view = τ)
    (fun σ e σ' τ h hs => by
      obtain ⟨hok, rfl⟩ := h
      exact ⟨_, view_step hok hs, hok.step hs, rfl⟩) ⟨Ok.start v n, rfl⟩ hr
  exact ⟨hok, hreach⟩

/-- What the program with the mutex does, the atomic one can do. -/
theorem atomicBehaviour (n m : Nat) (events : List (Event n)) (σ : System n)
    (hr : run (step .mutex m) (System.start n) events = some σ) :
    ∃ events' τ, run (step .atomic m) (System.start n) events' = some τ ∧ τ.counter = σ.counter ∧
      τ.main = σ.main.view ∧ ∀ t, τ.pc t = (σ.pc t).view := by
  obtain ⟨-, events', hr'⟩ := view_of_run hr
  exact ⟨events', σ.view, hr', rfl, rfl, fun _ => rfl⟩

/-- The first thread is between its read and its write while the second waits for the mutex. -/
def midUpdate (a b : Fin 2) : List (Event 2) :=
  [.main true, .main true, .thread a, .thread a, .thread a, .thread a, .thread a, .thread a, .thread a, .thread b,
    .thread a]

theorem atomicBehaviour_midUpdate : ∃ σ, run (step .mutex 2) (System.start 2) (midUpdate 0 1) = some σ ∧
    (σ.counter, σ.pc 0, σ.pc 1) = (73, .storing 1 2, .locking 0) ∧
    ∃ events' τ, run (step .atomic 2) (System.start 2) events' = some τ ∧ τ.counter = σ.counter ∧
      τ.main = σ.main.view ∧ ∀ t, τ.pc t = (σ.pc t).view := by
  have heval : (run (step .mutex 2) (System.start 2) (midUpdate 0 1)).map
      (fun σ => (σ.counter, σ.pc 0, σ.pc 1)) = some (73, .storing 1 2, .locking 0) := by decide +kernel
  obtain ⟨σ, hr, hσ⟩ := Option.map_eq_some_iff.mp heval
  exact ⟨σ, hr, hσ, atomicBehaviour 2 2 (midUpdate 0 1) σ hr⟩

end System
end OsExercises.Counter
