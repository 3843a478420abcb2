import OsExercises.Simulate.Invariant

/-!
# One child for each target

A failed call of `fork` is not noticed: `simulate` always waits for the children there are and returns 0.
So it does what its comment says exactly if no `fork` fails (`fansOut_iff`).
-/

namespace OsExercises.Simulate
open Processes Transition

variable {eyes : Int} {forks : Nat → Bool} {σ σ' : Table State} {e : Event}

/-- What a run has come to when no process can move: the children have simulated the targets 2, 3, ..,
and `simulate` has waited for all of them and returned 0. -/
structure FannedOut (eyes : Int) (σ : Table State) : Prop where
  simulated : σ.processes.map (fun p => p.state.simulated) =
    [] :: (List.range (2 * eyes - 1).toNat).map fun (k : Nat) => [(k : Int) + 2]
  reaped : (σ.processes.countP Process.reaped : Int) = 2 * eyes - 1
  returned : ∃ parent, σ.processes[0]? = some parent ∧ parent.state.pc = .returned 0

structure FansOut (eyes : Int) (forks : Nat → Bool) : Prop where
  ends : ∃ bound, ∀ events σ, run (Table.step (next eyes) forks) (start eyes) events = some σ →
    events.length ≤ bound
  noChildForks : (∀ k : Nat, k < 2 * eyes - 1 → forks k = true) → ∀ events σ,
    run (Table.step (next eyes) forks) (start eyes) events = some σ →
      ∀ p ∈ σ.processes.tail, p.parent = some 0
  fannedOut : (∀ k : Nat, k < 2 * eyes - 1 → forks k = true) → ∀ events σ,
    run (Table.step (next eyes) forks) (start eyes) events = some σ →
      Final (Table.step (next eyes) forks) σ → FannedOut eyes σ
  reported : (∃ k : Nat, k < 2 * eyes - 1 ∧ forks k = false) → ∀ events σ,
    run (Table.step (next eyes) forks) (start eyes) events = some σ →
      Final (Table.step (next eyes) forks) σ →
        ∃ parent, σ.processes[0]? = some parent ∧ parent.state.pc = .returned (-2)

/-! ### The end of a run -/

namespace Inv

variable {parent : Process State} {children : List (Process State)}

/-- No process can move only when `simulate` has returned 0 and all children have been waited for. -/
theorem of_final (h : Inv eyes forks σ parent children) (hfinal : Final (Table.step (next eyes) forks) σ) :
    parent.state.pc = .returned 0 ∧ σ.calls = 2 * eyes - 1 ∧ ∀ p ∈ children, p.reaped = true := by
  have hparent : σ.processes[0]? = some parent := by rw [h.processes]; rfl
  have hpc := h.pc
  cases hstate : parent.state.pc with
  | returned r =>
    rw [hstate] at hpc
    obtain ⟨rfl, hcalls, hreaped⟩ := hpc
    exact ⟨rfl, hcalls, List.forall_mem_map.mp hreaped⟩
  | forking target =>
    have hnext : next eyes parent.state = .fork fun pid => { parent.state with pc := afterFork eyes pid target } := by
      rw [next, hstate]
    cases hforks : forks σ.calls with
    | true => exact absurd hfinal (Table.not_final (.forked hparent hnext hforks))
    | false => exact absurd hfinal (Table.not_final (.forkFailed hparent hnext hforks))
  | waiting i =>
    have hnext : next eyes parent.state = .wait { parent.state with pc := afterWait eyes i } := by
      rw [next, hstate]
    by_cases hall : ∀ c ∈ σ.processes, c.parent = some 0 → c.reaped = true
    · exact absurd hfinal (Table.not_final (.childless hparent hnext hall))
    · push Not at hall
      obtain ⟨c, hc, hparent', hreaped⟩ := hall
      obtain ⟨j, hj⟩ := List.getElem?_of_mem hc
      cases hcall : next eyes c.state with
      | ended =>
        exact absurd hfinal (Table.not_final (.reaped hparent hnext hj hparent' (by rw [hcall]; rfl)
          (eq_false_of_ne_true hreaped)))
      | call k =>
        have hstep : Table.Step (next eyes) forks σ (.call j true) _ := .called hj hcall
        exact absurd hfinal (Table.not_final hstep)
      | fork k =>
        obtain ⟨-, rfl, -⟩ := h.of_fork hj hcall
        cases h.noParent.symm.trans hparent'
      | wait s =>
        obtain ⟨-, rfl, -⟩ := h.of_wait hj hcall
        cases h.noParent.symm.trans hparent'
  | simulating target => rw [hstate] at hpc; cases hpc
  | exited => rw [hstate] at hpc; cases hpc
  | undefined => rw [hstate] at hpc; cases hpc

theorem fannedOut (h : Inv eyes forks σ parent children) (hfinal : Final (Table.step (next eyes) forks) σ)
    (hforks : ∀ k : Nat, k < 2 * eyes - 1 → forks k = true) : FannedOut eyes σ := by
  obtain ⟨hreturned, hcalls, hreaped⟩ := h.of_final hfinal
  have hmade : made forks σ.calls = List.range (2 * eyes - 1).toNat := by
    rw [made_eq_range fun k hk => hforks k (by omega), ← hcalls, Int.toNat_natCast]
  have hchildren := h.children
  rw [hmade] at hchildren
  have hlength := hchildren.length_eq
  rw [List.length_range] at hlength
  refine ⟨?_, ?_, parent, by rw [h.processes]; rfl, hreturned⟩
  · rw [h.processes, List.map_cons, h.simulated, map_eq_of_forall₂ hchildren fun k p hp hk => ?_]
    rcases hk.state with ⟨-, hnot⟩ | ⟨-, hsimulated⟩
    · cases (hreaped p hp).symm.trans hnot
    · exact hsimulated
  · rw [h.processes, List.countP_cons_of_neg (by rw [h.notReaped]; exact Bool.false_ne_true),
      List.countP_eq_length.mpr hreaped, ← hlength]
    omega

end Inv

/-! ### All runs -/

def Forking (eyes : Int) (forks : Nat → Bool) (σ : Table State) : Prop :=
  ∃ parent children, Inv eyes forks σ parent children

section Runs

variable (h1 : 1 ≤ eyes) (h2 : eyes < 2 ^ 30)
include h1 h2

theorem Forking.step (h : Forking eyes forks σ) (hs : σ.step (next eyes) forks e = some σ') :
    Forking eyes forks σ' := by
  obtain ⟨parent, children, h⟩ := h
  obtain ⟨parent', children', h', -⟩ := h.step h1 h2 hs
  exact ⟨parent', children', h'⟩

theorem Forking.weight_lt (h : Forking eyes forks σ) (hs : σ.step (next eyes) forks e = some σ') :
    weight eyes σ' < weight eyes σ := by
  obtain ⟨parent, children, h⟩ := h
  obtain ⟨parent', children', -, hlt⟩ := h.step h1 h2 hs
  exact hlt

theorem forking_of_run {events : List Event}
    (hr : run (Table.step (next eyes) forks) (start eyes) events = some σ) : Forking eyes forks σ :=
  run_inv (fun _ _ _ => Forking.step h1 h2) ⟨_, _, Inv.start h1 h2⟩ hr

theorem length_le_weight {events : List Event}
    (hr : run (Table.step (next eyes) forks) (start eyes) events = some σ) :
    events.length ≤ weight eyes (start eyes) := by
  have hle := run_length_le (fun _ _ _ => Forking.step h1 h2) (fun _ _ _ => Forking.weight_lt h1 h2)
    ⟨_, _, Inv.start h1 h2⟩ hr
  exact Nat.le_of_add_right_le hle

theorem exists_final_run (forks : Nat → Bool) : ∃ events σ,
    run (Table.step (next eyes) forks) (start eyes) events = some σ ∧
      Final (Table.step (next eyes) forks) σ := by
  have hstart : Forking eyes forks (start eyes) := ⟨_, _, Inv.start h1 h2⟩
  obtain ⟨σ, ⟨events, hr⟩, hfinal⟩ := exists_final (fun _ _ _ => Forking.step h1 h2)
    (fun _ _ _ => Forking.weight_lt h1 h2) hstart
  exact ⟨events, σ, hr, hfinal⟩

end Runs

/-- `simulate` does what its comment says exactly if no call of `fork` fails. -/
theorem fansOut_iff (eyes : Int) (forks : Nat → Bool) (h1 : 1 ≤ eyes) (h2 : eyes < 2 ^ 30) :
    FansOut eyes forks ↔ ∀ k : Nat, k < 2 * eyes - 1 → forks k = true := by
  constructor
  · intro h k hk
    by_contra hforks
    obtain ⟨events, σ, hr, hfinal⟩ := exists_final_run h1 h2 forks
    obtain ⟨p, hp, hpc⟩ := h.reported ⟨k, hk, eq_false_of_ne_true hforks⟩ events σ hr hfinal
    obtain ⟨parent, children, hinv⟩ := forking_of_run h1 h2 hr
    rw [hinv.processes] at hp
    obtain rfl : parent = p := Option.some.inj hp
    cases (hinv.of_final hfinal).1.symm.trans hpc
  · intro hforks
    refine ⟨⟨_, fun events σ => length_le_weight h1 h2⟩, fun _ events σ hr p hp => ?_,
      fun _ events σ hr hfinal => ?_, ?_⟩
    · obtain ⟨parent, children, hinv⟩ := forking_of_run h1 h2 hr
      rw [hinv.processes] at hp
      obtain ⟨k, hk⟩ := exists_of_mem_right hinv.children hp
      exact hk.parent
    · obtain ⟨parent, children, hinv⟩ := forking_of_run h1 h2 hr
      exact hinv.fannedOut hfinal hforks
    · rintro ⟨k, hk, hfails⟩
      cases hfails.symm.trans (hforks k hk)

theorem fansOut_coins : FansOut 2 fun _ => true :=
  (fansOut_iff 2 (fun _ => true) (by decide) (by decide)).mpr fun _ _ => rfl

/-- With one-sided dice there is a single call of `fork`. -/
theorem not_fansOut_failing : ¬ FansOut 1 fun _ => false := by
  intro h
  have hr : run (Table.step (next 1) fun _ => false) (start 1) [.fork 0, .wait 0 none] =
      some ⟨[⟨none, ⟨.returned 0, []⟩, false⟩], 1⟩ := rfl
  have hfinal : Final (Table.step (next 1) fun _ => false) ⟨[⟨none, ⟨.returned 0, []⟩, false⟩], 1⟩ := by
    rintro (i | ⟨i, child⟩ | ⟨i, succeeds⟩) <;> cases i <;> rfl
  obtain ⟨parent, hparent, hpc⟩ := h.reported ⟨0, by decide, rfl⟩ _ _ hr hfinal
  obtain rfl := Option.some.inj hparent
  cases hpc

end OsExercises.Simulate
