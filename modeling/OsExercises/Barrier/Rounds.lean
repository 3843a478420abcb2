import OsExercises.Barrier.Serial
import Mathlib.Data.Fintype.Card

/-!
# Rounds of exactly `count` threads

With exactly `count` threads the `k`-th generation consists of the `k`-th calls of all threads
(`Sync`). A thread that has been let go is at most one generation behind until it has left, so it
never mistakes the current generation for its own, however often the `int` wraps. No thread is let
go before all have arrived (`noEarlyRelease`) and none is left asleep (`noLostWakeup`).
-/

namespace OsExercises.Barrier
open Transition

variable {T : Type*}

/-- How many calls a thread has made when the given number of generations is complete. -/
def History.SyncPlace (H : History T) (t : T) : Pc → Prop
  | .outside | .unlocking _ => H.calls t = H.rounds.length
  | .locking | .entered => H.calls t = H.rounds.length + 1
  | .testing _ | .sleeping _ | .woken _ =>
    H.calls t = H.arrivedIn t + 1 ∧ H.rounds.length ≤ H.arrivedIn t + 1

theorem History.SyncPlace.congr {H H' : History T} {t : T} {p : Pc} (h : H.SyncPlace t p)
    (hcalls : H'.calls t = H.calls t) (harrived : H'.arrivedIn t = H.arrivedIn t)
    (hrounds : H'.rounds.length = H.rounds.length) : H'.SyncPlace t p := by
  cases p <;> simpa only [SyncPlace, hcalls, harrived, hrounds] using h

/-- Each generation is made of the calls with one number. -/
structure Sync (σ : System T) : Prop where
  place : ∀ t, σ.history.SyncPlace t (σ.pc t)
  rounds : ∀ round ∈ σ.history.rounds, ∀ t k, (t, k) ∈ round → ∀ u, (u, k) ∈ round

theorem mem_of_length_eq_card [Fintype T] {l : List T} (hnd : l.Nodup)
    (hlen : l.length = Fintype.card T) (t : T) : t ∈ l := by
  classical
  have hcard : l.toFinset.card = Fintype.card T := (List.toFinset_card_of_nodup hnd).trans hlen
  have huniv : l.toFinset = Finset.univ := (Finset.card_eq_iff_eq_univ _).mp hcard
  exact List.mem_toFinset.mp (huniv ▸ Finset.mem_univ t)

namespace Sync

variable {count : Nat} {σ σ' : System T} {t : T} {k : Nat}

theorem calls_of_mem (hi : Inv count σ) (h : Sync σ) (hmem : (t, k) ∈ σ.history.current) :
    k = σ.history.rounds.length + 1 := by
  obtain rfl := hi.history.current t k hmem
  obtain ⟨hwait, g, hpc⟩ := hi.waiting_of_mem hmem
  have hplace := h.place t
  rcases hpc with hpc | hpc | hpc <;> rw [hpc] at hplace <;> rw [hplace.1, hwait.1]

theorem released (h : Sync σ) (hrel : σ.history.Released t) {g : Int}
    (hpc : σ.pc t = .testing g) : σ.history.rounds.length = σ.history.arrivedIn t + 1 := by
  have hplace := h.place t
  rw [hpc] at hplace
  have := hrel.1
  have := hplace.2
  omega

theorem notMistaken (hi : Inv count σ) (h : Sync σ) : NotMistaken σ := by
  intro t g hpc hrel hg
  obtain ⟨hgen, -⟩ : σ.history.Place t (.testing g) := hpc ▸ hi.place t
  have hlen := h.released hrel hpc
  rw [hgen, hi.generation, hlen] at hg
  have := toInt_inj hg (by omega) (by omega)
  omega

theorem start (b : MyPthreadBarrier) : Sync (System.start (T := T) b) :=
  ⟨fun _ => rfl, by simp [System.start]⟩

/-- When the last of `count` calls arrives, all threads have. -/
theorem mem_of_last [Fintype T] (hi : Inv count σ) (h : Sync σ) (hcard : Fintype.card T = count)
    (hpc : σ.pc t = .entered) (hlen : σ.history.current.length + 1 = count) (u : T) :
    (u, σ.history.rounds.length + 1) ∈ σ.history.callOf t :: σ.history.current := by
  have hnum : ∀ c ∈ σ.history.callOf t :: σ.history.current, c.2 = σ.history.rounds.length + 1 := by
    intro c hc
    rcases List.mem_cons.mp hc with rfl | hc
    · have hplace := h.place t
      rw [hpc] at hplace
      exact hplace
    · exact h.calls_of_mem hi hc
  have hnot : σ.history.callOf t ∉ σ.history.log := by
    have hplace := hi.place t
    rw [hpc] at hplace
    exact hplace
  have hnd : (σ.history.callOf t :: σ.history.current).Nodup :=
    List.nodup_cons.mpr ⟨fun hmem => hnot (List.mem_append_right _ hmem),
      (List.nodup_append.mp hi.history.nodup).2.1⟩
  have hthreads : ((σ.history.callOf t :: σ.history.current).map Prod.fst).Nodup := by
    refine hnd.map_on fun c hc d hd heq => Prod.ext heq ?_
    rw [hnum c hc, hnum d hd]
  have hmem := mem_of_length_eq_card hthreads (by rw [List.length_map, List.length_cons, hlen, hcard]) u
  obtain ⟨c, hc, rfl⟩ := List.mem_map.mp hmem
  rw [← hnum c hc]
  exact hc

variable [DecidableEq T]

theorem moved {mutex : Option T} {p : Pc} (h : Sync σ) (ht : σ.history.SyncPlace t p) :
    Sync { σ with mutex := mutex, pc := Function.update σ.pc t p } :=
  ⟨(Function.forall_update_iff ..).mpr ⟨ht, fun u _ => h.place u⟩, h.rounds⟩

theorem arrive [Fintype T] (hi : Inv count σ) (h : Sync σ) (hcard : Fintype.card T = count)
    (hs : σ.arrive t = some σ') : Sync σ' := by
  obtain ⟨hpc, hcases⟩ := System.arrive_cases hs
  have ht : σ.history.SyncPlace t .entered := hpc ▸ h.place t
  have hlt := hi.waiting_lt
  rw [hi.waiting_succ, hi.maxThreads] at hcases
  rcases hcases with ⟨-, rfl⟩ | ⟨hlast, rfl⟩
  · have harrived : (σ.history.counted t).arrivedIn t = σ.history.rounds.length := Function.update_self ..
    refine ⟨(Function.forall_update_iff ..).mpr ⟨?_, fun u hut => ?_⟩, h.rounds⟩
    · refine ⟨?_, ?_⟩ <;> rw [harrived]
      · exact ht
      · exact Nat.le_succ _
    · exact (h.place u).congr rfl (Function.update_of_ne hut ..) rfl
  · have hmem := h.mem_of_last hi hcard hpc (by omega)
    refine ⟨(Function.forall_update_iff ..).mpr ⟨ht, ?_⟩, ?_⟩
    · intro u hut
      -- `u` is in the loop, and its generation is the one just completed
      have hu : (u, σ.history.rounds.length + 1) ∈ σ.history.current := by
        rcases List.mem_cons.mp (hmem u) with heq | hu
        · exact absurd (congrArg Prod.fst heq) hut
        · exact hu
      have hcalls := hi.history.current u _ hu
      rw [hcalls] at hu
      obtain ⟨⟨hin, -⟩, g, hpcu⟩ := hi.waiting_of_mem hu
      have harrived : (σ.history.completed t).arrivedIn u = σ.history.rounds.length :=
        (Function.update_of_ne hut ..).trans hin
      have hloop : (σ.history.completed t).calls u = (σ.history.completed t).arrivedIn u + 1 ∧
          σ.history.rounds.length + 1 ≤ (σ.history.completed t).arrivedIn u + 1 := by
        rw [harrived]
        exact ⟨hcalls.symm, Nat.le_refl _⟩
      rcases hpcu with hpcu | hpcu | hpcu <;> rw [hpcu] <;> exact hloop
    · intro round hround
      rcases List.mem_cons.mp hround with rfl | hround
      · intro v k hv u
        have hk : k = σ.history.rounds.length + 1 := by
          rcases List.mem_cons.mp hv with heq | hv
          · cases heq
            exact ht
          · exact h.calls_of_mem hi hv
        rw [hk]
        exact hmem u
      · exact h.rounds round hround

theorem test (hi : Inv count σ) (h : Sync σ) (hs : σ.test t = some σ') : Sync σ' := by
  obtain ⟨g, hpc, hcases⟩ := System.test_cases hs
  have ht : σ.history.SyncPlace t (.testing g) := hpc ▸ h.place t
  obtain ⟨hgen, hplace⟩ : σ.history.Place t (.testing g) := hpc ▸ hi.place t
  rcases hcases with ⟨-, rfl⟩ | ⟨hleave, rfl⟩
  · exact h.moved ht
  · rcases hplace with hwait | hrel
    · exact absurd (hi.stays hgen hwait) hleave
    · refine h.moved ?_
      show σ.history.calls t = σ.history.rounds.length
      rw [h.released hrel hpc, ht.1]

theorem step [Fintype T] (hi : Inv count σ) (h : Sync σ) (hcard : Fintype.card T = count) {e : Event T}
    (hs : σ.step e = some σ') : Sync σ' := by
  cases e with
  | call t =>
    obtain ⟨hpc, rfl⟩ := System.call_cases hs
    have ht : σ.history.SyncPlace t .outside := hpc ▸ h.place t
    refine ⟨(Function.forall_update_iff ..).mpr ⟨?_, fun u hut => ?_⟩, h.rounds⟩
    · exact (Function.update_self ..).trans (congrArg (· + 1) ht)
    · exact (h.place u).congr (Function.update_of_ne hut ..) rfl rfl
  | lock t =>
    obtain ⟨hpc, -, rfl⟩ := System.lock_cases hs
    have ht : σ.history.SyncPlace t .locking := hpc ▸ h.place t
    exact h.moved ht
  | arrive t => exact h.arrive hi hcard hs
  | test t => exact h.test hi hs
  | wake t =>
    obtain ⟨g, hpc, rfl⟩ := System.wake_cases hs
    have ht : σ.history.SyncPlace t (.sleeping g) := hpc ▸ h.place t
    exact h.moved ht
  | relock t =>
    obtain ⟨g, hpc, -, rfl⟩ := System.relock_cases hs
    have ht : σ.history.SyncPlace t (.woken g) := hpc ▸ h.place t
    exact h.moved ht
  | unlock t =>
    obtain ⟨r, hpc, rfl⟩ := System.unlock_cases hs
    have ht : σ.history.SyncPlace t (.unlocking r) := hpc ▸ h.place t
    exact ⟨(Function.forall_update_iff ..).mpr ⟨ht, fun u _ => h.place u⟩, h.rounds⟩

end Sync

/-! ### Runs -/

variable [DecidableEq T] [Fintype T] {b₀ b : MyPthreadBarrier} {count : Nat} {res : InitResults}
  {events : List (Event T)} {σ : System T}

theorem sync_of_run (hcard : Fintype.card T = count) (hmax : (count : Int) ≤ INT_MAX)
    (hinit : myPthreadBarrierInit (some b₀) count res = (some b, 0))
    (hr : run System.step (System.start b) events = some σ) : Inv count σ ∧ Sync σ :=
  run_inv (I := fun σ => Inv count σ ∧ Sync σ)
    (fun _ _ _ ⟨hi, h⟩ hs => ⟨hi.step (h.notMistaken hi) hs, h.step hi hcard hs⟩)
    ⟨Inv.init hmax hinit, Sync.start b⟩ hr

/-- When a thread has returned from its `k`-th call, every thread has made its `k`-th call and been
counted. -/
def NoEarlyRelease (σ : System T) : Prop :=
  ∀ t k r, ((t, k), r) ∈ σ.history.results → ∀ u, k ≤ σ.history.calls u ∧ (u, k) ∈ σ.history.log

theorem noEarlyRelease (b₀ b : MyPthreadBarrier) (count : Nat) (res : InitResults)
    (events : List (Event T)) (σ : System T) (hcard : Fintype.card T = count)
    (hmax : (count : Int) ≤ INT_MAX) (hinit : myPthreadBarrierInit (some b₀) count res = (some b, 0))
    (hr : run System.step (System.start b) events = some σ) : NoEarlyRelease σ := by
  obtain ⟨hi, h⟩ := sync_of_run hcard hmax hinit hr
  intro t k r hret u
  obtain ⟨round, hround, hmem⟩ := List.mem_flatten.mp (hi.history.results _ r hret).mem_flatten
  have hlog : (u, k) ∈ σ.history.log :=
    List.mem_append_left _ (List.mem_flatten.mpr ⟨round, hround, h.rounds round hround t k hmem u⟩)
  exact ⟨hi.history.log_le u k hlog, hlog⟩

theorem noEarlyRelease_twoRounds : ∃ σ : System (Fin 2),
    run System.step (System.start ⟨2, 0, 0⟩) (twoRounds 0 1) = some σ ∧
    σ.history.results = [((1, 2), 0), ((0, 2), -1), ((0, 1), 0), ((1, 1), -1)] ∧ NoEarlyRelease σ := by
  have hresults : (run System.step (System.start ⟨2, 0, 0⟩) (twoRounds (0 : Fin 2) 1)).map
      (fun σ => σ.history.results) = some [((1, 2), 0), ((0, 2), -1), ((0, 1), 0), ((1, 1), -1)] := by
    decide +kernel
  obtain ⟨σ, hr, hresults⟩ := Option.map_eq_some_iff.mp hresults
  exact ⟨σ, hr, hresults, noEarlyRelease ⟨0, 0, 0⟩ ⟨2, 0, 0⟩ 2 ⟨0, 0, 0⟩ _ σ rfl (by decide) (by decide) hr⟩

/-- With the mutex free, `waiting_threads` counts the calls of the current generation and is less
than `max_threads`, and whoever sleeps has captured the current generation and is counted in it.
When all threads are inside, one of them can go on without a spurious wake-up. -/
structure NoLostWakeup (σ : System T) : Prop where
  waiting : σ.mutex = none → σ.barrier.waitingThreads < σ.barrier.maxThreads ∧
    σ.barrier.waitingThreads = σ.history.current.length
  asleep : σ.mutex = none → ∀ t g, σ.pc t = .sleeping g →
    g = σ.barrier.generation ∧ σ.history.callOf t ∈ σ.history.current
  goesOn : (∀ t, σ.pc t ≠ .outside) → ∃ e σ', e.spurious = false ∧ σ.step e = some σ'

omit [Fintype T] in
theorem exists_step_of_holds {t : T} (h : (σ.pc t).holds = true) :
    ∃ e σ', e.spurious = false ∧ (∀ u, e ≠ .call u) ∧ σ.step e = some σ' := by
  cases hpc : σ.pc t with
  | entered =>
    have harrive : (σ.arrive t).isSome = true := by
      simp only [System.arrive, hpc]
      split <;> rfl
    obtain ⟨σ', hσ'⟩ := Option.isSome_iff_exists.mp harrive
    exact ⟨.arrive t, σ', rfl, nofun, hσ'⟩
  | testing g =>
    have htest : (σ.test t).isSome = true := by
      simp only [System.test, hpc]
      split <;> rfl
    obtain ⟨σ', hσ'⟩ := Option.isSome_iff_exists.mp htest
    exact ⟨.test t, σ', rfl, nofun, hσ'⟩
  | unlocking r => exact ⟨.unlock t, _, rfl, nofun, by simp only [System.step, System.unlock, hpc]; rfl⟩
  | outside => rw [hpc] at h; cases h
  | locking => rw [hpc] at h; cases h
  | sleeping g => rw [hpc] at h; cases h
  | woken g => rw [hpc] at h; cases h

omit [Fintype T] in
theorem goesOn_of_holds {t : T} (h : (σ.pc t).holds = true) :
    ∃ e σ', e.spurious = false ∧ σ.step e = some σ' := by
  obtain ⟨e, σ', hspurious, -, hs⟩ := exists_step_of_holds h
  exact ⟨e, σ', hspurious, hs⟩

theorem Inv.exists_not_sleeping (h : Inv count σ) (hcard : Fintype.card T = count) :
    ∃ t, ∀ g, σ.pc t ≠ .sleeping g := by
  by_contra hall
  have hmem : ∀ t, t ∈ (σ.history.current.map Prod.fst).toFinset := by
    intro t
    obtain ⟨g, hg⟩ : ∃ g, σ.pc t = .sleeping g := by
      by_contra hno
      exact hall ⟨t, fun g hg => hno ⟨g, hg⟩⟩
    have hplace : σ.history.Place t (.sleeping g) := hg ▸ h.place t
    exact List.mem_toFinset.mpr (List.mem_map.mpr ⟨_, hplace.2.2, rfl⟩)
  have hle := Finset.card_le_card (fun t _ => hmem t : Finset.univ ⊆ _)
  have hlen := List.toFinset_card_le (σ.history.current.map Prod.fst)
  rw [List.length_map] at hlen
  have hlt := h.waiting_lt
  rw [Finset.card_univ, hcard] at hle
  omega

theorem Inv.oneGoesOn (h : Inv count σ) (hcard : Fintype.card T = count) : NoLostWakeup σ := by
  refine ⟨fun _ => ?_, fun _ t g hpc => ?_, ?_⟩
  · rw [h.waiting, h.maxThreads]
    exact ⟨Int.ofNat_lt.mpr h.waiting_lt, rfl⟩
  · obtain ⟨hgen, hwait⟩ : σ.history.Place t (.sleeping g) := hpc ▸ h.place t
    exact ⟨(h.stays hgen hwait).1, hwait.2⟩
  · intro hin
    cases hmutex : σ.mutex with
    | some t => exact goesOn_of_holds ((h.holder t).mp hmutex)
    | none =>
      obtain ⟨t, ht⟩ := h.exists_not_sleeping hcard
      cases hpc : σ.pc t with
      | outside => exact absurd hpc (hin t)
      | locking => exact ⟨.lock t, _, rfl, by simp only [System.step, System.lock, hpc, hmutex]; rfl⟩
      | woken g => exact ⟨.relock t, _, rfl, by simp only [System.step, System.relock, hpc, hmutex]; rfl⟩
      | sleeping g => exact absurd hpc (ht g)
      | entered => exact goesOn_of_holds (by rw [hpc]; rfl)
      | testing g => exact goesOn_of_holds (by rw [hpc]; rfl)
      | unlocking r => exact goesOn_of_holds (by rw [hpc]; rfl)

theorem noLostWakeup (b₀ b : MyPthreadBarrier) (count : Nat) (res : InitResults)
    (events : List (Event T)) (σ : System T) (hcard : Fintype.card T = count)
    (hmax : (count : Int) ≤ INT_MAX) (hinit : myPthreadBarrierInit (some b₀) count res = (some b, 0))
    (hr : run System.step (System.start b) events = some σ) : NoLostWakeup σ :=
  (sync_of_run hcard hmax hinit hr).1.oneGoesOn hcard

/-- Thread 1 waits in the second generation, thread 0 is still to be let go from the first. -/
theorem noLostWakeup_twoRounds : ∃ σ : System (Fin 2),
    run System.step (System.start ⟨2, 0, 0⟩) ((twoRounds 0 1).take 15) = some σ ∧
    σ.pc 0 = .woken 0 ∧ σ.pc 1 = .sleeping 1 ∧ NoLostWakeup σ := by
  have hplaces : (run System.step (System.start ⟨2, 0, 0⟩) ((twoRounds (0 : Fin 2) 1).take 15)).map
      (fun σ => (σ.pc 0, σ.pc 1)) = some (.woken 0, .sleeping 1) := by decide +kernel
  obtain ⟨σ, hr, hplaces⟩ := Option.map_eq_some_iff.mp hplaces
  obtain ⟨h0, h1⟩ := Prod.mk.inj hplaces
  exact ⟨σ, hr, h0, h1, noLostWakeup ⟨0, 0, 0⟩ ⟨2, 0, 0⟩ 2 ⟨0, 0, 0⟩ _ σ rfl (by decide) (by decide) hr⟩

end OsExercises.Barrier
