import OsExercises.Barrier.Rounds
import OsExercises.Lib.CyclicBarrier

/-!
# `my_pthread_barrier_t` is a barrier

For exactly `count` threads the implementation refines the barrier of `Lib/CyclicBarrier.lean`: a
thread waits from its call until its generation is complete, the last arrival completes a round with
itself as the serial thread, and the unlocking step returns.
-/

namespace OsExercises.Barrier
open CyclicBarrier

variable {T : Type} [DecidableEq T]

/-- A thread in the loop waits as long as its call is counted in the current generation. -/
def History.placeOf (H : History T) (t : T) : Pc → CyclicBarrier.Place
  | .outside => .outside
  | .locking | .entered => .waiting
  | .testing _ | .sleeping _ | .woken _ =>
    if H.callOf t ∈ H.current then .waiting else .released false
  | .unlocking r => .released (r = MY_PTHREAD_BARRIER_SERIAL_THREAD)

def System.places (σ : System T) (t : T) : CyclicBarrier.Place := σ.history.placeOf t (σ.pc t)

/-- The steps of `my_pthread_barrier_wait` between the call and the return. -/
def System.within (σ : System T) : Event T → Option (System T)
  | .call _ | .unlock _ => none
  | e => σ.step e

def System.leave (σ : System T) (t : T) : Option (Bool × System T) :=
  match σ.pc t with
  | .unlocking r => (σ.unlock t).map fun σ' => (decide (r = MY_PTHREAD_BARRIER_SERIAL_THREAD), σ')
  | _ => none

/-- The barrier that `my_pthread_barrier_init` makes for `count` threads. -/
def machine (T : Type) [DecidableEq T] (count : Int) : Machine T where
  State := System T
  Event := Event T
  start := .start { maxThreads := count, waitingThreads := 0, generation := 0 }
  spurious := Event.spurious
  call := System.call
  internal := System.within
  ret := System.leave

variable {σ σ' : System T} {t u : T} {p : Pc} {count : Nat} {e : Event T}

theorem History.placeOf_congr {H H' : History T} (hcall : H'.callOf u = H.callOf u)
    (hcurrent : H.callOf u ∈ H'.current ↔ H.callOf u ∈ H.current) :
    H'.placeOf u p = H.placeOf u p := by
  cases p <;> simp only [placeOf, hcall, hcurrent]

/-- A step that moves `t` only, with what it does to the history. -/
theorem places_update {place : CyclicBarrier.Place} (hpc : σ'.pc = Function.update σ.pc t p)
    (hcall : ∀ u, u ≠ t → σ'.history.callOf u = σ.history.callOf u)
    (hcurrent : ∀ u, u ≠ t → (σ.history.callOf u ∈ σ'.history.current ↔
      σ.history.callOf u ∈ σ.history.current))
    (hplace : σ'.history.placeOf t p = place) : σ'.places = Function.update σ.places t place := by
  funext u
  by_cases hut : u = t
  · subst hut
    simp only [System.places, hpc, Function.update_self, hplace]
  · simp only [System.places, hpc, Function.update_of_ne hut]
    exact History.placeOf_congr (hcall u hut) (hcurrent u hut)

/-- A step that moves `t` to a place that looks the same from outside. -/
theorem places_eq (hpc : σ'.pc = Function.update σ.pc t p)
    (hcall : ∀ u, u ≠ t → σ'.history.callOf u = σ.history.callOf u)
    (hcurrent : ∀ u, u ≠ t → (σ.history.callOf u ∈ σ'.history.current ↔
      σ.history.callOf u ∈ σ.history.current))
    (hplace : σ'.history.placeOf t p = σ.places t) : σ'.places = σ.places := by
  rw [places_update hpc hcall hcurrent hplace, Function.update_eq_self]

theorem call_refines (hs : σ.call t = some σ') : call? σ.places t = some σ'.places := by
  obtain ⟨hpc, rfl⟩ := System.call_cases hs
  have hplace : σ.places t = .outside := by simp only [System.places, hpc, History.placeOf]
  rw [call?, if_pos hplace]
  refine congrArg some (Eq.symm ?_)
  exact places_update rfl (fun _ hut => History.callOf_called hut) (fun _ _ => Iff.rfl) rfl

theorem leave_refines {serial : Bool} (hs : σ.leave t = some (serial, σ')) :
    return? σ.places t = some (serial, σ'.places) := by
  unfold System.leave at hs
  split at hs
  · next r hpc =>
    obtain ⟨σ', hs, heq⟩ := Option.map_eq_some_iff.mp hs
    cases heq
    obtain ⟨-, -, rfl⟩ := System.unlock_cases hs
    have hplace : σ.places t = .released (r = MY_PTHREAD_BARRIER_SERIAL_THREAD) := by
      simp only [System.places, hpc, History.placeOf]
    rw [return?, hplace]
    refine congrArg (fun places => some (_, places)) (Eq.symm ?_)
    exact places_update rfl (fun _ _ => rfl) (fun _ _ => Iff.rfl) rfl
  · cases hs

theorem test_refines (hi : Inv count σ) (hs : σ.test t = some σ') :
    σ'.places = σ.places := by
  obtain ⟨g, hpc, hcases⟩ := System.test_cases hs
  obtain ⟨hgen, hplace⟩ : σ.history.Place t (.testing g) := hpc ▸ hi.place t
  rcases hcases with ⟨-, rfl⟩ | ⟨hleave, rfl⟩
  · refine places_eq rfl (fun _ _ => rfl) (fun _ _ => Iff.rfl) ?_
    simp only [System.places, hpc, History.placeOf]
  · rcases hplace with hwait | hrel
    · exact absurd (hi.stays hgen hwait) hleave
    · refine places_eq rfl (fun _ _ => rfl) (fun _ _ => Iff.rfl) ?_
      have hmem := hi.history.notMem_current hrel.2.mem_flatten
      simp [System.places, hpc, History.placeOf, hmem, MY_PTHREAD_BARRIER_SERIAL_THREAD]

theorem step_of_within (hs : σ.within e = some σ') : σ.step e = some σ' := by
  cases e <;> first | exact hs | cases hs

theorem step_of_leave {serial : Bool} (hs : σ.leave t = some (serial, σ')) :
    σ.step (.unlock t) = some σ' := by
  unfold System.leave at hs
  split at hs
  · obtain ⟨σ', hs, heq⟩ := Option.map_eq_some_iff.mp hs
    cases heq
    exact hs
  · cases hs

/-- A step that is not a call is one within the barrier or a return. -/
theorem within_or_leave (hcall : ∀ t, e ≠ .call t) (hspurious : e.spurious = false)
    (hs : σ.step e = some σ') :
    (∃ e σ', e.spurious = false ∧ σ.within e = some σ') ∨ ∃ t serial σ', σ.leave t = some (serial, σ') := by
  cases e with
  | call t => exact absurd rfl (hcall t)
  | unlock t =>
    obtain ⟨r, hpc, -⟩ := System.unlock_cases hs
    refine .inr ⟨t, decide (r = MY_PTHREAD_BARRIER_SERIAL_THREAD), σ', ?_⟩
    have hunlock : σ.unlock t = some σ' := hs
    simp only [System.leave, hpc, hunlock, Option.map_some]
  | lock t => exact .inl ⟨.lock t, σ', rfl, hs⟩
  | arrive t => exact .inl ⟨.arrive t, σ', rfl, hs⟩
  | test t => exact .inl ⟨.test t, σ', rfl, hs⟩
  | wake t => cases hspurious
  | relock t => exact .inl ⟨.relock t, σ', rfl, hs⟩

section Inv

variable [Fintype T]

theorem arrive_refines (hi : Inv count σ) (h : Sync σ) (hcard : Fintype.card T = count)
    (hs : σ.arrive t = some σ') :
    σ'.places = σ.places ∨ complete? σ.places t = some σ'.places := by
  obtain ⟨hpc, hcases⟩ := System.arrive_cases hs
  rw [hi.waiting_succ, hi.maxThreads] at hcases
  have ht : σ.places t = .waiting := by simp only [System.places, hpc, History.placeOf]
  rcases hcases with ⟨-, rfl⟩ | ⟨hlast, rfl⟩
  · left
    refine places_eq rfl (fun _ _ => rfl) ?_ ?_
    · intro u hut
      have hne : σ.history.callOf u ≠ σ.history.callOf t := fun heq => hut (congrArg Prod.fst heq)
      simp only [History.counted, List.mem_cons, hne, false_or]
    · rw [ht]
      exact if_pos List.mem_cons_self
  · right
    have hlt := hi.waiting_lt
    have hloop : ∀ u, u ≠ t → σ.places u = .waiting ∧
        ∃ g, σ.pc u = .testing g ∨ σ.pc u = .sleeping g ∨ σ.pc u = .woken g := by
      intro u hut
      have hmem : σ.history.callOf u ∈ σ.history.current := by
        rcases List.mem_cons.mp (h.mem_of_last hi hcard hpc (by omega) u) with heq | hmem
        · exact absurd (congrArg Prod.fst heq) hut
        · rw [hi.history.current u _ hmem] at hmem
          exact hmem
      obtain ⟨-, g, hg⟩ := hi.waiting_of_mem hmem
      refine ⟨?_, g, hg⟩
      rcases hg with hg | hg | hg <;> simp only [System.places, hg, History.placeOf, hmem, if_true]
    have hall : ∀ u, σ.places u = .waiting := by
      intro u
      by_cases hut : u = t
      · rw [hut, ht]
      · exact (hloop u hut).1
    rw [complete?, if_pos hall]
    refine congrArg some (funext fun u => ?_)
    by_cases hut : u = t
    · subst hut
      simp [System.places, History.placeOf]
    · obtain ⟨-, g, hg⟩ := hloop u hut
      rcases hg with hg | hg | hg <;>
        simp [System.places, hut, hg, Pc.broadcast, History.placeOf, History.completed]

theorem within_refines (hi : Inv count σ) (h : Sync σ) (hcard : Fintype.card T = count)
    (hs : σ.within e = some σ') :
    σ'.places = σ.places ∨ ∃ t, complete? σ.places t = some σ'.places := by
  cases e with
  | call t => cases hs
  | lock t =>
    obtain ⟨hpc, -, rfl⟩ := System.lock_cases hs
    refine .inl (places_eq rfl (fun _ _ => rfl) (fun _ _ => Iff.rfl) ?_)
    simp only [System.places, hpc, History.placeOf]
  | arrive t => exact (arrive_refines hi h hcard hs).imp_right fun hcomplete => ⟨t, hcomplete⟩
  | test t => exact .inl (test_refines hi hs)
  | wake t =>
    obtain ⟨g, hpc, rfl⟩ := System.wake_cases hs
    refine .inl (places_eq rfl (fun _ _ => rfl) (fun _ _ => Iff.rfl) ?_)
    simp only [System.places, hpc, History.placeOf]
  | relock t =>
    obtain ⟨g, hpc, -, rfl⟩ := System.relock_cases hs
    refine .inl (places_eq rfl (fun _ _ => rfl) (fun _ _ => Iff.rfl) ?_)
    simp only [System.places, hpc, History.placeOf]
  | unlock t => cases hs

/-- Somebody goes on when a thread has been let go, and when all have arrived. -/
theorem goesOn (hi : Inv count σ) (hcard : Fintype.card T = count)
    (hplaces : (∃ t serial, σ.places t = .released serial) ∨ ∀ t, σ.places t = .waiting) :
    (∃ e σ', e.spurious = false ∧ σ.within e = some σ') ∨ ∃ t serial σ', σ.leave t = some (serial, σ') := by
  cases hmutex : σ.mutex with
  | some u =>
    obtain ⟨e, σ', hspurious, hcall, hs⟩ := exists_step_of_holds ((hi.holder u).mp hmutex)
    exact within_or_leave hcall hspurious hs
  | none =>
    have hfree : ∀ t, (σ.pc t).holds = false := by
      intro t
      by_contra hheld
      have hsome := (hi.holder t).mpr (by simpa using hheld)
      rw [hmutex] at hsome
      cases hsome
    rcases hplaces with ⟨t, serial, ht⟩ | hall
    · have htfree := hfree t
      have hplace := hi.place t
      cases hpc : σ.pc t with
      | woken g =>
        exact .inl ⟨.relock t, _, rfl, by simp only [System.within, System.step, System.relock, hpc, hmutex]; rfl⟩
      | sleeping g =>
        rw [hpc] at hplace
        simp only [System.places, hpc, History.placeOf, hplace.2.2, if_true] at ht
        cases ht
      | outside => simp only [System.places, hpc, History.placeOf] at ht; cases ht
      | locking => simp only [System.places, hpc, History.placeOf] at ht; cases ht
      | _ => rw [hpc] at htfree; cases htfree
    · have hin : ∀ t, σ.pc t ≠ .outside := by
        intro t hpc
        have ht := hall t
        simp only [System.places, hpc, History.placeOf] at ht
        cases ht
      obtain ⟨e, σ', hspurious, hs⟩ := (hi.oneGoesOn hcard).goesOn hin
      refine within_or_leave ?_ hspurious hs
      rintro t rfl
      exact hin t (System.call_cases hs).1

end Inv

/-- The implementation refines the barrier for `count` threads. -/
def refinement [Fintype T] (hcard : Fintype.card T = count) (h1 : 1 ≤ count)
    (hmax : (count : Int) ≤ INT_MAX) : Refinement (machine T count) where
  Ok σ := Inv count σ ∧ Sync σ
  places := System.places
  start := ⟨⟨Inv.start h1 hmax, Sync.start _⟩, fun _ => rfl⟩
  call _ t _ h hs := ⟨⟨h.1.call hs, h.2.step h.1 hcard (e := .call t) hs⟩, call_refines hs⟩
  internal _ _ _ h hs :=
    ⟨⟨h.1.step (h.2.notMistaken h.1) (step_of_within hs), h.2.step h.1 hcard (step_of_within hs)⟩,
      within_refines h.1 h.2 hcard hs⟩
  ret _ _ _ _ h hs :=
    ⟨⟨h.1.step (h.2.notMistaken h.1) (step_of_leave hs), h.2.step h.1 hcard (step_of_leave hs)⟩,
      leave_refines hs⟩
  enabled σ t _ ht := by
    cases hpc : σ.pc t with
    | outside => exact ⟨_, by simp only [machine, System.call, hpc]; rfl⟩
    | locking => simp only [System.places, hpc, History.placeOf] at ht; cases ht
    | entered => simp only [System.places, hpc, History.placeOf] at ht; cases ht
    | unlocking r => simp only [System.places, hpc, History.placeOf] at ht; cases ht
    | _ =>
      simp only [System.places, hpc, History.placeOf] at ht
      split at ht <;> cases ht
  goesOn _ h hplaces := goesOn h.1 hcard hplaces

end OsExercises.Barrier
