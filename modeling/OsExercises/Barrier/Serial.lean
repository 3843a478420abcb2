import OsExercises.Barrier.Invariant
import Mathlib.Data.List.Lattice
import Mathlib.Data.List.Nodup
import Mathlib.Data.List.Pairwise

/-!
# One serial thread in each generation

With any number of threads and before the `int` has wrapped, every completed generation has `count`
calls, one of them is the serial thread, and no call is counted twice (`serialPerRound`).
-/

namespace OsExercises.Barrier
open Transition

variable {T : Type*}

namespace History

variable {H : History T} {count : Nat} {c : CallId T} {r : Int} {round round' : List (CallId T)}

theorem Ok.nodup_rounds (h : H.Ok count) : H.rounds.flatten.Nodup := (List.nodup_append.mp h.nodup).1

theorem Ok.round_unique (h : H.Ok count) (hr : round ∈ H.rounds) (hr' : round' ∈ H.rounds)
    (hc : c ∈ round) (hc' : c ∈ round') : round = round' := by
  by_contra hne
  have hpair := (List.nodup_flatten.mp h.nodup_rounds).2
  have hsymm : Std.Symm (List.Disjoint (α := CallId T)) := ⟨fun _ _ => List.Disjoint.symm⟩
  exact hpair.forall hr hr' hne hc hc'

theorem Ok.returns_head {rest : List (CallId T)} (h : H.Ok count) (hround : c :: rest ∈ H.rounds)
    (hr : H.Returns c r) : r = MY_PTHREAD_BARRIER_SERIAL_THREAD := by
  obtain ⟨round', hround', ⟨rfl, -⟩ | ⟨-, htail⟩⟩ := hr
  · rfl
  · obtain rfl := h.round_unique hround hround' List.mem_cons_self (List.mem_of_mem_tail htail)
    have := (List.nodup_flatten.mp h.nodup_rounds).1 _ hround
    exact absurd htail (List.nodup_cons.mp this).1

theorem Ok.returns_tail {d : CallId T} {rest : List (CallId T)} (h : H.Ok count)
    (hround : d :: rest ∈ H.rounds) (hc : c ∈ rest) (hr : H.Returns c r) : r = 0 := by
  obtain ⟨round', hround', ⟨-, hhead⟩ | ⟨rfl, -⟩⟩ := hr
  · obtain rfl := h.round_unique hround hround' (List.mem_cons_of_mem _ hc) (List.mem_of_mem_head? hhead)
    have := (List.nodup_flatten.mp h.nodup_rounds).1 _ hround
    cases hhead
    exact absurd hc (List.nodup_cons.mp this).1
  · rfl

end History

/-- Every completed generation has `count` calls; the last of them to arrive returns the serial
value and the others `0`; no call is counted twice, and only counted calls return. -/
structure SerialPerRound (count : Nat) (σ : System T) : Prop where
  length : ∀ round ∈ σ.history.rounds, round.length = count
  serial : ∀ round ∈ σ.history.rounds, ∃ c rest, round = c :: rest ∧
    (∀ r, (c, r) ∈ σ.history.results → r = MY_PTHREAD_BARRIER_SERIAL_THREAD) ∧
    ∀ d ∈ rest, ∀ r, (d, r) ∈ σ.history.results → r = 0
  once : (σ.history.rounds.flatten ++ σ.history.current).Nodup
  returned : ∀ c r, (c, r) ∈ σ.history.results → c ∈ σ.history.rounds.flatten

theorem Inv.serial {count : Nat} {σ : System T} (h : Inv count σ) : SerialPerRound count σ := by
  refine ⟨h.history.rounds, fun round hround => ?_, h.history.nodup,
    fun c r hc => (h.history.results c r hc).mem_flatten⟩
  have hlen := h.history.rounds round hround
  have hpos := h.waiting_lt
  rcases round with _ | ⟨c, rest⟩
  · simp at hlen
    omega
  · exact ⟨c, rest, rfl, fun r hr => h.history.returns_head hround (h.history.results c r hr),
      fun d hd r hr => h.history.returns_tail hround hd (h.history.results d r hr)⟩

/-- Before the `int` has wrapped around, different generations have different numbers. -/
theorem Inv.notMistaken {count : Nat} {σ : System T} (h : Inv count σ)
    (hlt : σ.history.rounds.length < 2 ^ 32) : NotMistaken σ := by
  intro t g hpc hrel hg
  obtain ⟨hgen, -⟩ : σ.history.Place t (.testing g) := hpc ▸ h.place t
  rw [hgen, h.generation] at hg
  have hin := hrel.1
  have := toInt_inj hg (by omega) (by omega)
  omega

variable [DecidableEq T]

theorem rounds_le_of_step {σ σ' : System T} {e : Event T} (hs : σ.step e = some σ') :
    σ.history.rounds.length ≤ σ'.history.rounds.length := by
  cases e with
  | call t => obtain ⟨-, rfl⟩ := System.call_cases hs; exact Nat.le_refl _
  | lock t => obtain ⟨-, -, rfl⟩ := System.lock_cases hs; exact Nat.le_refl _
  | arrive t =>
    obtain ⟨-, ⟨-, rfl⟩ | ⟨-, rfl⟩⟩ := System.arrive_cases hs
    · exact Nat.le_refl _
    · exact Nat.le_succ _
  | test t => obtain ⟨-, -, ⟨-, rfl⟩ | ⟨-, rfl⟩⟩ := System.test_cases hs <;> exact Nat.le_refl _
  | wake t => obtain ⟨-, -, rfl⟩ := System.wake_cases hs; exact Nat.le_refl _
  | relock t => obtain ⟨-, -, -, rfl⟩ := System.relock_cases hs; exact Nat.le_refl _
  | unlock t => obtain ⟨-, -, rfl⟩ := System.unlock_cases hs; exact Nat.le_refl _

variable {b₀ b : MyPthreadBarrier} {count : Nat} {res : InitResults} {events : List (Event T)}
  {σ σ' : System T}

omit [DecidableEq T] in
theorem Inv.init (hmax : (count : Int) ≤ INT_MAX)
    (hinit : myPthreadBarrierInit (some b₀) count res = (some b, 0)) :
    Inv count (System.start (T := T) b) := by
  obtain ⟨rfl, h1⟩ := init_spec hinit
  exact Inv.start (by omega) hmax

theorem inv_of_run (hmax : (count : Int) ≤ INT_MAX)
    (hinit : myPthreadBarrierInit (some b₀) count res = (some b, 0))
    (hr : run System.step (System.start b) events = some σ) (hlt : σ.history.rounds.length < 2 ^ 31) :
    Inv count σ := by
  have hrun := run_inv (I := fun σ => σ.history.rounds.length < 2 ^ 31 → Inv count σ)
    (fun τ e τ' hinv hs hlt' => ?_) (fun _ => Inv.init hmax hinit) hr
  · exact hrun hlt
  · have hle := rounds_le_of_step hs
    have hτ := hinv (by omega)
    exact hτ.step (hτ.notMistaken (by omega)) hs

/-- Any number of threads, fewer than `2 ^ 31` generations. -/
theorem serialPerRound (b₀ b : MyPthreadBarrier) (count : Nat) (res : InitResults)
    (events : List (Event T)) (σ : System T) (hmax : (count : Int) ≤ INT_MAX)
    (hinit : myPthreadBarrierInit (some b₀) count res = (some b, 0))
    (hr : run System.step (System.start b) events = some σ) (hlt : σ.history.rounds.length < 2 ^ 31) :
    SerialPerRound count σ :=
  (inv_of_run hmax hinit hr hlt).serial

/-- Two generations of a barrier for two: `a` sleeps in the first and wakes up too early, `b` is in
the second before `a` has left the first. -/
def twoRounds (a b : T) : List (Event T) :=
  [.call a, .lock a, .arrive a, .test a, .wake a, .relock a, .test a, .call b, .lock b, .arrive b,
    .unlock b, .call b, .lock b, .arrive b, .test b, .relock a, .test a, .unlock a, .call a, .lock a,
    .arrive a, .unlock a, .relock b, .test b, .unlock b]

theorem serialPerRound_twoRounds : ∃ σ : System (Fin 3),
    run System.step (System.start ⟨2, 0, 0⟩) (twoRounds 0 1) = some σ ∧
    σ.history.rounds = [[(0, 2), (1, 2)], [(1, 1), (0, 1)]] ∧ SerialPerRound 2 σ := by
  have hrounds : (run System.step (System.start ⟨2, 0, 0⟩) (twoRounds (0 : Fin 3) 1)).map
      (fun σ => σ.history.rounds) = some [[(0, 2), (1, 2)], [(1, 1), (0, 1)]] := by decide +kernel
  obtain ⟨σ, hr, hrounds⟩ := Option.map_eq_some_iff.mp hrounds
  exact ⟨σ, hr, hrounds, serialPerRound ⟨0, 0, 0⟩ ⟨2, 0, 0⟩ 2 ⟨0, 0, 0⟩ _ σ (by decide) (by decide) hr
    (by rw [hrounds]; decide)⟩

end OsExercises.Barrier
