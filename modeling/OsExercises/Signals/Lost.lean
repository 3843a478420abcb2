import Mathlib.Tactic.Ring
import OsExercises.Signals.Model

/-!
# Lost signals

A decrement reads the counter and stores it less one later. A signal of that kind that is handled in
between is overwritten, so it is never reported.
-/

namespace OsExercises.Signals

namespace Pc

/-- The loop of `sig` has reported a signal and not yet counted it down. -/
def inProgress (sig : Signal) : Pc → Bool
  | .loading s _ | .storing s _ _ => s = sig
  | _ => false

/-- What the main program takes the counter `res` of `sig` to be. -/
def seen (sig : Signal) (res : Int) : Pc → Int
  | .storing s _ loaded => if s = sig then loaded else res
  | _ => res

variable {sig : Signal} {res : Int} {pc : Pc}

theorem seen_of_ne (h : ∀ rest loaded, pc ≠ .storing sig rest loaded) : pc.seen sig res = res := by
  cases pc with
  | storing s rest loaded =>
    refine if_neg fun hs => ?_
    subst hs
    exact h rest loaded rfl
  | working | testing | reporting | loading => rfl

theorem seen_of_not_inProgress (h : pc.inProgress sig = false) : pc.seen sig res = res := by
  refine seen_of_ne fun rest loaded hpc => ?_
  rw [hpc] at h
  exact absurd rfl (of_decide_eq_false h)

end Pc

namespace System

/-- `sig` is handled between the read and the store of its counter. -/
def Overwrites (sig : Signal) (σ : System) (e : Event) : Prop :=
  e = .deliver sig ∧ σ.process.disposition sig = .handler ∧
    ∃ rest loaded, σ.pc = .storing sig rest loaded

/-- How many signals are missing. -/
def deficit (sig : Signal) (σ : System) : Int :=
  σ.process.activations sig + (if σ.pc.inProgress sig then 1 else 0) - σ.process.printed sig -
    σ.pc.seen sig (σ.process.res sig)

variable {σ σ' : System} {sig : Signal} {e : Event}

theorem deficit_main (hs : Step σ .main σ') : σ'.deficit sig = σ.deficit sig := by
  unfold deficit
  cases hs with
  | poll hpc => rw [hpc]; rfl
  | pending hpc => rw [hpc]; rfl
  | @none s rest hpc =>
    rw [hpc]
    cases rest with
    | nil => rfl
    | cons => rfl
  | sigaction hpc => rw [hpc]; rfl
  | @report s rest hpc =>
    rw [hpc]
    by_cases hsig : s = sig
    · subst hsig
      simp [Pc.inProgress, Pc.seen, Process.report]
    · simp [Pc.inProgress, Pc.seen, Process.report, hsig, Ne.symm hsig]
  | @load s rest hpc =>
    rw [hpc]
    by_cases hsig : s = sig
    · subst hsig
      simp [Pc.inProgress, Pc.seen]
    · simp [Pc.inProgress, Pc.seen, hsig]
  | @store s rest loaded res hpc hres =>
    rw [hpc]
    by_cases hsig : s = sig
    · subst hsig
      simp [Pc.inProgress, Pc.seen, Process.store, (intAdd?_cases hres).1]
      ring
    · simp [Pc.inProgress, Pc.seen, Process.store, hsig, Ne.symm hsig]

theorem deficit_step (h : ¬ Overwrites sig σ e) (hs : σ.step e = some σ') :
    σ'.deficit sig = σ.deficit sig := by
  have hcases := step_cases hs
  cases e with
  | main => exact deficit_main hcases
  | deliver s =>
    cases hcases with
    | drop => rfl
    | handle hdisposition hres =>
      by_cases hsig : s = sig
      · subst hsig
        have hpc : ∀ rest loaded, σ.pc ≠ .storing s rest loaded := fun rest loaded hpc =>
          h ⟨rfl, hdisposition, rest, loaded, hpc⟩
        simp only [deficit, Pc.seen_of_ne hpc]
        simp [Process.store, Process.activate, (intAdd?_cases hres).1]
        ring
      · simp [deficit, Process.store, Process.activate, Ne.symm hsig]

theorem deficit_lt (h : Overwrites sig σ e) (hs : σ.step e = some σ') :
    σ.deficit sig < σ'.deficit sig := by
  obtain ⟨rfl, hdisposition, rest, loaded, hpc⟩ := h
  cases step_cases hs with
  | drop hne => exact absurd hdisposition hne
  | handle _ hres =>
    simp [deficit, Pc.inProgress, Pc.seen, hpc, Process.store, Process.activate]

theorem deficit_start : start.deficit sig = 0 := rfl

theorem deficit_eq_zero_iff (hpc : σ.pc.inProgress sig = false) : σ.deficit sig = 0 ↔
    σ.process.printed sig + σ.process.res sig = σ.process.activations sig := by
  rw [deficit, Pc.seen_of_not_inProgress hpc, hpc]
  simp only [Bool.false_eq_true, if_false]
  omega

end System

/-! ### Every signal is reported once -/

/-- Unless a decrement is in progress, the lines and the counter are together the signals handled. -/
def Reported (sig : Signal) (σ : System) : Prop :=
  σ.pc.inProgress sig = false →
    σ.process.printed sig + σ.process.res sig = σ.process.activations sig

theorem reported_iff_not_overwritten (sig : Signal) (events : List Event) (σ : System)
    (h : Transition.run System.step System.start events = some σ)
    (hpc : σ.pc.inProgress sig = false) :
    Reported sig σ ↔
      Transition.Meets System.step (fun σ e => ¬ System.Overwrites sig σ e) System.start events := by
  rw [← Transition.meter_eq_iff_meets (I := fun _ => True) (fun _ _ _ _ _ => trivial)
    (fun _ _ _ _ => System.deficit_step) (fun _ _ _ _ h => System.deficit_lt (not_not.mp h)) trivial h,
    System.deficit_start, System.deficit_eq_zero_iff hpc]
  exact ⟨fun hreported => hreported hpc, fun heq _ => heq⟩

/-- The second signal arrives between the read and the store of the first one's decrement. -/
def overwritten : List Event :=
  [.deliver .SIGINT] ++ List.replicate 6 .main ++ [.deliver .SIGINT, .main]

theorem reported_iff_two_interrupts : ∃ σ,
    Transition.run System.step System.start overwritten = some σ ∧
      (Reported .SIGINT σ ↔ Transition.Meets System.step
        (fun σ e => ¬ System.Overwrites .SIGINT σ e) System.start overwritten) := by
  have hend : (Transition.run System.step System.start overwritten).map
      (fun σ => σ.pc.inProgress .SIGINT) = some false := rfl
  obtain ⟨σ, hrun, hpc⟩ := Option.map_eq_some_iff.mp hend
  exact ⟨σ, hrun, reported_iff_not_overwritten .SIGINT overwritten σ hrun hpc⟩

theorem not_reported : ¬ ∀ (sig : Signal) (events : List Event) (σ : System),
    Transition.run System.step System.start events = some σ → Reported sig σ := by
  intro h
  have hend : (Transition.run System.step System.start overwritten).map (fun σ =>
      (σ.pc.inProgress .SIGINT, σ.process.printed .SIGINT, σ.process.res .SIGINT,
        σ.process.activations .SIGINT)) = some (false, 1, 0, 2) := rfl
  obtain ⟨σ, hrun, heq⟩ := Option.map_eq_some_iff.mp hend
  simp only [Prod.mk.injEq] at heq
  obtain ⟨hpc, hprinted, hres, hactivations⟩ := heq
  have hreported := h .SIGINT overwritten σ hrun hpc
  rw [hprinted, hres, hactivations] at hreported
  cases hreported

end OsExercises.Signals
