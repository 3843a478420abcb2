import OsExercises.Dice.Agreement
import OsExercises.Lib.Simulation

/-!
# The two dice games

A game over an implementation of the barrier, seen as one over the barrier itself: the steps within the
implementation complete a round or are not seen, the others are the same. So whatever the game of task 3
does with `my_pthread_barrier_t`, the game of task 2 can do with `pthread_barrier_t`
(`posix_behaviour`).
-/

namespace OsExercises.Dice
open CyclicBarrier Transition

variable {n : Nat} {M : Machine (Fin n)}

/-- The game with the barrier as its users see it. -/
def System.view (R : Refinement M) (σ : System M) : System (spec (Fin n)) where
  table := σ.table
  pc := σ.pc
  barrier := R.places σ.barrier
  rounds := σ.rounds
  rolls := σ.rolls
  eliminator := σ.eliminator
  announced := σ.announced

variable {R : Refinement M} {σ σ' : System M} {e : Event M} {events : List (Event M)}

theorem view_start (R : Refinement M) : (System.start M).view R = System.start (spec (Fin n)) := by
  have hplaces : R.places M.start = fun _ => .outside := funext R.start.2
  simp only [System.view, System.start, hplaces]
  rfl

theorem System.step_eq (h : Step σ e σ') : σ.step e = some σ' := by
  cases h with
  | enterFirst hpc hb => simp [step, enter, hpc, hb]
  | enterSecond hpc hb => simp [step, enter, hpc, hb]
  | within hb => simp [step, System.within, hb]
  | exitFirst hpc hb => simp [step, exit, hpc, hb]
  | exitSecond hpc hb => simp [step, exit, hpc, hb]
  | testLast hpc hactive => simp [step, test, hpc, hactive]
  | testMore hpc hactive => simp [step, test, hpc, hactive]
  | roll hpc hplaying => simp [step, System.roll, hpc, hplaying]
  | skip hpc hplaying => simp [step, System.roll, hpc, hplaying]
  | decideSerial hpc => simp [step, System.decide, hpc]
  | decide hpc => simp [step, System.decide, hpc]
  | eliminate hpc hp => simp [step, System.eliminate, hpc, hp]
  | eliminated hpc hp => simp [step, System.eliminate, hpc, hp]
  | leaveSerial hpc => simp [step, System.leave, hpc]
  | leave hpc => simp [step, System.leave, hpc]
  | announce hpc hi hplaying => simp [step, System.announce, hpc, hi, hplaying]
  | scan hpc hi hplaying => simp [step, System.announce, hpc, hi, hplaying]
  | noWinner hpc hi => simp [step, System.announce, hpc, hi]

/-- What the step is for the barrier itself. -/
theorem view_step (hok : R.Ok σ.barrier) (hs : σ.step e = some σ') :
    R.Ok σ'.barrier ∧ Reaches System.step (σ.view R) (σ'.view R) := by
  have hmatched : ∀ e', System.Step (σ.view R) e' (σ'.view R) →
      Reaches System.step (σ.view R) (σ'.view R) := fun _ h => .single (System.step_eq h)
  cases System.step_cases hs with
  | @enterFirst t res b hpc hb =>
    obtain ⟨hok', hcall⟩ := R.call _ _ _ hok hb
    exact ⟨hok', hmatched (.enter t) (.enterFirst hpc hcall)⟩
  | @enterSecond t b hpc hb =>
    obtain ⟨hok', hcall⟩ := R.call _ _ _ hok hb
    exact ⟨hok', hmatched (.enter t) (.enterSecond hpc hcall)⟩
  | within hb =>
    obtain ⟨hok', hsame | ⟨t, hcomplete⟩⟩ := R.internal _ _ _ hok hb
    · refine ⟨hok', ?_⟩
      simp only [System.view, hsame]
      exact .refl
    · exact ⟨hok', hmatched (.barrier t) (.within hcomplete)⟩
  | @exitFirst t res serial b hpc hb =>
    obtain ⟨hok', hreturn⟩ := R.ret _ _ _ _ hok hb
    exact ⟨hok', hmatched (.exit t) (.exitFirst hpc hreturn)⟩
  | @exitSecond t serial b hpc hb =>
    obtain ⟨hok', hreturn⟩ := R.ret _ _ _ _ hok hb
    exact ⟨hok', hmatched (.exit t) (.exitSecond hpc hreturn)⟩
  | testLast hpc hactive => exact ⟨hok, hmatched _ (.testLast hpc hactive)⟩
  | testMore hpc hactive => exact ⟨hok, hmatched _ (.testMore hpc hactive)⟩
  | roll hpc hplaying => exact ⟨hok, hmatched _ (.roll hpc hplaying)⟩
  | @skip t r₁ r₂ hpc hplaying => exact ⟨hok, hmatched (.roll t r₁ r₂) (.skip hpc hplaying)⟩
  | decideSerial hpc => exact ⟨hok, hmatched _ (.decideSerial hpc)⟩
  | decide hpc => exact ⟨hok, hmatched _ (.decide hpc)⟩
  | eliminate hpc hp => exact ⟨hok, hmatched _ (.eliminate hpc hp)⟩
  | eliminated hpc hp => exact ⟨hok, hmatched _ (.eliminated hpc hp)⟩
  | leaveSerial hpc => exact ⟨hok, hmatched _ (.leaveSerial hpc)⟩
  | leave hpc => exact ⟨hok, hmatched _ (.leave hpc)⟩
  | @announce t i hpc hi hplaying =>
    have hview : (σ.view R).pc t = .announcing i := hpc
    exact ⟨hok, hmatched _ (.announce hview hi hplaying)⟩
  | scan hpc hi hplaying => exact ⟨hok, hmatched _ (.scan hpc hi hplaying)⟩
  | noWinner hpc hi => exact ⟨hok, hmatched _ (.noWinner hpc hi)⟩

/-- Every run over an implementation of the barrier is one over the barrier. -/
theorem reaches_view (hr : run System.step (System.start M) events = some σ) :
    Reaches System.step (System.start (spec (Fin n))) (σ.view R) := by
  have hstart : R.Ok (System.start M).barrier ∧ (System.start M).view R = System.start (spec (Fin n)) :=
    ⟨R.start.1, view_start R⟩
  obtain ⟨τ, hreach, -, rfl⟩ := reaches_of_simulation (R := fun σ τ => R.Ok σ.barrier ∧ σ.view R = τ)
    (fun σ e σ' τ h hs => by
      obtain ⟨hok, rfl⟩ := h
      obtain ⟨hok', hreach⟩ := view_step hok hs
      exact ⟨_, hreach, hok', rfl⟩) hstart hr
  exact hreach

/-- The state of task 2 is the one of task 3, apart from what is inside of the barrier. -/
structure SameGame (σ : System (Variant.own.machine n)) (τ : System (Variant.posix.machine n)) : Prop where
  table : τ.table = σ.table
  pc : τ.pc = σ.pc
  rounds : τ.rounds = σ.rounds
  eliminator : τ.eliminator = σ.eliminator
  announced : τ.announced = σ.announced

/-- What the game of task 3 does with its own barrier is what that of task 2 can do. -/
theorem posix_behaviour (hn : 2 ≤ n) (hmax : (n : Int) ≤ INT_MAX)
    (events : List (Event (Variant.own.machine n))) (σ : System (Variant.own.machine n))
    (hr : run System.step (System.start (Variant.own.machine n)) events = some σ) :
    ∃ events' τ, run System.step (System.start (Variant.posix.machine n)) events' = some τ ∧ SameGame σ τ := by
  obtain ⟨events', hr'⟩ := reaches_view (R := Variant.refinement hn hmax .own) hr
  exact ⟨events', _, hr', rfl, rfl, rfl, rfl, rfl⟩

/-- Both threads pass the first barrier and roll. -/
def ownBarrier (a b : Fin 2) : List (Event (Variant.own.machine 2)) :=
  [.enter a, .barrier (.lock a), .barrier (.arrive a), .barrier (.test a), .enter b, .barrier (.lock b),
    .barrier (.arrive b), .exit b, .test b, .barrier (.relock a), .roll b 5 5, .barrier (.test a), .exit a,
    .test a, .roll a 0 3]

theorem posix_behaviour_ownBarrier : ∃ σ,
    run System.step (System.start (Variant.own.machine 2)) (ownBarrier 0 1) = some σ ∧
    ((σ.table.players 0).result, (σ.table.players 1).result) = (5, 12) ∧
    ∃ events' τ, run System.step (System.start (Variant.posix.machine 2)) events' = some τ ∧
      SameGame σ τ := by
  have hresults : (run System.step (System.start (Variant.own.machine 2)) (ownBarrier 0 1)).map
      (fun σ => ((σ.table.players 0).result, (σ.table.players 1).result)) = some (5, 12) := by
    decide +kernel
  obtain ⟨σ, hr, hresults⟩ := Option.map_eq_some_iff.mp hresults
  exact ⟨σ, hr, hresults, posix_behaviour (by decide) (by decide) (ownBarrier 0 1) σ hr⟩

end OsExercises.Dice
