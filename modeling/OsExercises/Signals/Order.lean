import OsExercises.Signals.Poll

/-!
# The order of the signals

Runs of deliveries and calls of `print_recieved_signals`, with a log of what was received and when it
was polled, newest first. A call treats a `SIGINT` before the other signals of its batch, so a signal
that came before a `SIGINT` of its batch has an effect as if it had come after it.
-/

namespace OsExercises.Signals

inductive Entry where
  /-- The handler was called. -/
  | received (sig : Signal)
  | polled
deriving DecidableEq

/-! ### The log -/

section Log

variable {log : List Entry} {sig : Signal}

/-- Behind the last `SIGINT`. -/
def sinceInt (log : List Entry) : List Entry := log.takeWhile (· ≠ .received .SIGINT)

/-- Behind the last call. -/
def batch (log : List Entry) : List Entry := log.takeWhile (· ≠ .polled)

/-- Between the last `SIGINT` and the call before it. -/
def batchBeforeInt (log : List Entry) : List Entry :=
  batch (log.dropWhile (· ≠ .received .SIGINT)).tail

/-- Up to the last call. -/
def untilPolled (log : List Entry) : List Entry := log.dropWhile (· ≠ .polled)

/-- What the dispositions are due to. -/
def Charged (sig : Signal) (log : List Entry) : Prop :=
  .received sig ∈ sinceInt log ∨ .received sig ∈ batchBeforeInt log

theorem charged_polled : Charged sig (.polled :: log) ↔ Charged sig log := by
  simp [Charged, sinceInt, batchBeforeInt]

theorem charged_iff (hsig : sig ≠ .SIGINT) : Charged sig log ↔
    .received sig ∈ batch log ∨ .received .SIGINT ∉ batch log ∧ Charged sig (untilPolled log) := by
  induction log with
  | nil => simp [Charged, sinceInt, batchBeforeInt, batch, untilPolled]
  | cons e log ih =>
    cases e with
    | polled => simp [batch, untilPolled]
    | received s =>
      by_cases hs : s = .SIGINT
      · subst hs
        simp [Charged, sinceInt, batchBeforeInt, batch, hsig]
      · have hcharged : Charged sig (.received s :: log) ↔ sig = s ∨ Charged sig log := by
          simp [Charged, sinceInt, batchBeforeInt, hs, or_assoc]
        rw [hcharged, ih]
        simp [batch, untilPolled, or_assoc, Ne.symm hs]

end Log

/-! ### Deliveries and calls -/

structure Polling where
  process : Process
  log : List Entry

inductive Call where
  | deliver (sig : Signal)
  /-- `print_recieved_signals`. -/
  | poll
deriving DecidableEq

namespace Polling

def start : Polling := ⟨.start, []⟩

def step (σ : Polling) : Call → Option Polling
  | .deliver sig => (σ.process.deliver sig).map fun p =>
    ⟨p, if σ.process.disposition sig = .handler then .received sig :: σ.log else σ.log⟩
  | .poll => σ.process.printRecievedSignals.map fun p => ⟨p, .polled :: σ.log⟩

structure Inv (σ : Polling) : Prop where
  inRange : σ.process.InRange
  pending : ∀ sig, σ.process.res sig ≠ 0 ↔ .received sig ∈ batch σ.log
  usr2 : σ.process.disposition .SIGUSR2 = .ignore ↔ Charged .SIGUSR1 (untilPolled σ.log)
  usr1 : σ.process.disposition .SIGUSR1 = .ignore ↔ Charged .SIGUSR2 (untilPolled σ.log)

variable {σ σ' : Polling} {sig : Signal} {c : Call}

theorem Inv.start : Inv start := by
  have hmax : 0 ≤ INT_MAX := by decide
  refine ⟨fun sig => ⟨le_refl 0, hmax⟩, ?_, ?_, ?_⟩
  all_goals simp [Polling.start, Process.start, Process.sigaction, batch, untilPolled, Charged, sinceInt,
    batchBeforeInt]

theorem Inv.deliver (h : Inv σ) (hs : σ.step (.deliver sig) = some σ') : Inv σ' := by
  obtain ⟨p, hp, rfl⟩ := Option.map_eq_some_iff.mp hs
  have hrange := h.inRange.deliver hp
  unfold Process.deliver at hp
  split at hp
  case h_1 hdisposition =>
    obtain ⟨res, hres, rfl⟩ := Option.map_eq_some_iff.mp hp
    obtain ⟨rfl, hmax⟩ := intAdd?_cases hres
    rw [if_pos hdisposition]
    refine ⟨hrange, fun s => ?_, h.usr2, h.usr1⟩
    by_cases hs : s = sig
    · subst hs
      have hpos := (h.inRange s).1
      simp [Process.store, batch]
      omega
    · have hpending := h.pending s
      simp [Process.store, batch, hs] at hpending ⊢
      exact hpending
  case h_2 hdisposition =>
    cases hp
    rw [if_neg (by rw [hdisposition]; exact Disposition.noConfusion)]
    exact h
  case h_3 hdisposition =>
    split_ifs at hp
    cases hp
    rw [if_neg (by rw [hdisposition]; exact Disposition.noConfusion)]
    exact h

theorem Inv.poll (h : Inv σ) (hs : σ.step .poll = some σ') : Inv σ' := by
  obtain ⟨p, hp, rfl⟩ := Option.map_eq_some_iff.mp hs
  have hpolled := Process.printRecievedSignals_spec hp
  have hnone : σ.process.res .SIGINT = 0 ↔ .received .SIGINT ∉ batch σ.log := by
    rw [← h.pending, not_not]
  refine ⟨?_, fun s => ?_, ?_, ?_⟩
  · have hmax : 0 ≤ INT_MAX := by decide
    intro s
    rw [hpolled.res]
    exact ⟨le_refl 0, hmax⟩
  · simp [hpolled.res, batch]
  · rw [hpolled.usr2, h.usr2, h.pending, hnone, ← charged_iff (by decide)]
    exact charged_polled.symm
  · rw [hpolled.usr1, h.usr1, h.pending, hnone, ← charged_iff (by decide)]
    exact charged_polled.symm

theorem Inv.step (h : Inv σ) (hs : σ.step c = some σ') : Inv σ' := by
  cases c with
  | deliver => exact h.deliver hs
  | poll => exact h.poll hs

theorem Inv.poll_isSome (h : Inv σ) : ∃ σ', σ.step .poll = some σ' := by
  obtain ⟨p, hp, -⟩ := h.inRange.foldlM Process.order
  exact ⟨_, Option.map_eq_some_iff.mpr ⟨p, hp, rfl⟩⟩

/-- The steps of the main program and the handler can be taken in the same order. -/
theorem run_system {calls : List Call} (h : Transition.run step start calls = some σ) :
    ∃ events, Transition.run System.step System.start events = some ⟨σ.process, .working⟩ := by
  refine Transition.run_inv (I := fun σ => ∃ events,
    Transition.run System.step System.start events = some ⟨σ.process, .working⟩) ?_ ⟨[], rfl⟩ h
  rintro σ c σ' ⟨events, hrun⟩ hs
  cases c with
  | deliver sig =>
    obtain ⟨p, hp, rfl⟩ := Option.map_eq_some_iff.mp hs
    refine ⟨events ++ [.deliver sig], Transition.run_append_eq_some.mpr ⟨_, hrun, ?_⟩⟩
    exact Transition.run_cons_eq_some.mpr ⟨_, Option.map_eq_some_iff.mpr ⟨p, hp, rfl⟩, rfl⟩
  | poll =>
    obtain ⟨p, hp, rfl⟩ := Option.map_eq_some_iff.mp hs
    obtain ⟨k, hk⟩ := System.undisturbed_printRecievedSignals hp
    exact ⟨events ++ List.replicate k .main, Transition.run_append_eq_some.mpr ⟨_, hrun, hk⟩⟩

end Polling

/-! ### Dispositions follow the order of arrival -/

/-- A signal is ignored exactly if the other one came since the last `SIGINT`. -/
structure FollowsOrder (σ : Polling) : Prop where
  usr2 : σ.process.disposition .SIGUSR2 = .ignore ↔ .received .SIGUSR1 ∈ sinceInt σ.log
  usr1 : σ.process.disposition .SIGUSR1 = .ignore ↔ .received .SIGUSR2 ∈ sinceInt σ.log

/-- What came before the last `SIGINT` in its batch came again after it. -/
def Repeated (log : List Entry) : Prop :=
  ∀ sig ∈ [Signal.SIGUSR1, .SIGUSR2], .received sig ∈ batchBeforeInt log → .received sig ∈ sinceInt log

theorem follows_order_iff (calls : List Call) (σ : Polling)
    (h : Transition.run Polling.step Polling.start calls = some σ) :
    ∃ σ', σ.step .poll = some σ' ∧ (FollowsOrder σ' ↔ Repeated σ'.log) := by
  have hinv : Polling.Inv σ := Transition.run_inv (fun _ _ _ h hs => h.step hs) Polling.Inv.start h
  obtain ⟨σ', hpoll⟩ := hinv.poll_isSome
  have hinv' := hinv.step hpoll
  obtain ⟨p, hp, rfl⟩ := Option.map_eq_some_iff.mp hpoll
  refine ⟨_, hpoll, ?_⟩
  have husr2 : p.disposition .SIGUSR2 = .ignore ↔ Charged .SIGUSR1 (.polled :: σ.log) := hinv'.usr2
  have husr1 : p.disposition .SIGUSR1 = .ignore ↔ Charged .SIGUSR2 (.polled :: σ.log) := hinv'.usr1
  constructor
  · rintro ⟨hfollows2, hfollows1⟩ sig hsig hbefore
    rcases List.mem_pair.mp hsig with rfl | rfl
    · exact hfollows2.mp (husr2.mpr (Or.inr hbefore))
    · exact hfollows1.mp (husr1.mpr (Or.inr hbefore))
  · intro hrepeated
    exact ⟨husr2.trans (or_iff_left_of_imp (hrepeated _ List.mem_cons_self)),
      husr1.trans (or_iff_left_of_imp (hrepeated _ (List.mem_cons_of_mem _ List.mem_cons_self)))⟩

/-- The two signals come in one batch. -/
def reset : List Call := [.deliver .SIGUSR1, .deliver .SIGINT]

theorem follows_order_iff_reset : ∃ σ,
    Transition.run Polling.step Polling.start reset = some σ ∧
      ∃ σ', σ.step .poll = some σ' ∧ (FollowsOrder σ' ↔ Repeated σ'.log) :=
  ⟨_, rfl, follows_order_iff reset _ rfl⟩

/-- `SIGUSR2` is ignored although the `SIGINT` came last. -/
theorem not_follows_order : ¬ ∀ (calls : List Call) (σ σ' : Polling),
    Transition.run Polling.step Polling.start calls = some σ → σ.step .poll = some σ' →
      FollowsOrder σ' := by
  intro h
  have hend : (Transition.run Polling.step Polling.start (reset ++ [.poll])).map
      (fun σ => (σ.process.disposition .SIGUSR2, σ.log)) =
        some (.ignore, [.polled, .received .SIGINT, .received .SIGUSR1]) := by decide +kernel
  obtain ⟨σ'', hrun, heq⟩ := Option.map_eq_some_iff.mp hend
  rw [Prod.mk.injEq] at heq
  obtain ⟨hignored, hlog⟩ := heq
  obtain ⟨σ, hcalls, hlast⟩ := Transition.run_append_eq_some.mp hrun
  obtain ⟨σ', hpoll, hnil⟩ := Transition.run_cons_eq_some.mp hlast
  cases hnil
  have hmem := (h reset σ σ'' hcalls hpoll).usr2.mp hignored
  rw [hlog] at hmem
  exact absurd hmem (by decide)

end OsExercises.Signals
