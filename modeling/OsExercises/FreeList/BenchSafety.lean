import OsExercises.FreeList.BenchInvariant

/-!
# No thread of the benchmark is in another's way

A call that has the mutex returns, a call that waits gets the mutex when it is free, and a thread that is
in no call goes on, so the benchmark never stops before its end (`Ok.goesOn`). `Safe` says what every state
of a run is worth to its threads.
-/

namespace OsExercises.FreeList.Bench
open Transition
namespace System

variable {n : Nat} {ctx : ThreadContext} {mem : Mem} {σ σ' : System n} {t : Fin n} {w : Worker}

namespace Ok

/-! ### Somebody goes on -/

theorem exists_call {c : Call} (pc : Pc) (hidle : σ.alloc.phase (some t) = .idle)
    (hpermits : σ.alloc.permits c = true) : ∃ σ', σ.call t c pc = some σ' :=
  ⟨_, Option.map_eq_some_iff.mpr
    ⟨_, FreeList.System.step_call_eq_some.mpr ⟨⟨hidle, hpermits⟩, rfl⟩, rfl⟩⟩

theorem exists_callMain {c : Call} (m : Main) (hidle : σ.alloc.phase none = .idle)
    (hpermits : σ.alloc.permits c = true) : ∃ σ', σ.callMain c m = some σ' :=
  ⟨_, Option.map_eq_some_iff.mpr
    ⟨_, FreeList.System.step_call_eq_some.mpr ⟨⟨hidle, hpermits⟩, rfl⟩, rfl⟩⟩

/-- A thread that runs and is in no call goes on. -/
theorem exists_advance (h : Ok ctx mem σ) (hidle : σ.alloc.phase (some t) = .idle)
    (hstarted : (σ.workers t).pc ≠ .unstarted) (hfinished : (σ.workers t).pc ≠ .finished) :
    ∃ σ', σ.advance ctx t 0 = some σ' := by
  have hpermits : ∀ i, (σ.workers t).ptrs i ≠ 0 → σ.alloc.permits (.free ((σ.workers t).ptrs i)) = true := by
    intro i hi
    exact decide_eq_true ((h.pool hstarted hfinished).free (k := (t, i)) h.apart hi).2.2
  have hat := h.worker t
  cases hpc : (σ.workers t).pc with
  | unstarted => exact absurd hpc hstarted
  | finished => exact absurd hpc hfinished
  | scanning i =>
    simp only [System.advance, hpc]
    split
    · exact ⟨_, rfl⟩
    · split
      · split
        · exact ⟨_, rfl⟩
        · next hp => exact exists_call _ hidle (hpermits _ hp)
      · exact ⟨_, rfl⟩
  | requesting i =>
    simp only [System.advance, hpc]
    exact exists_call _ hidle rfl
  | draining i =>
    simp only [System.advance, hpc]
    split
    · split
      · exact ⟨_, rfl⟩
      · next hp => exact exists_call _ hidle (hpermits _ hp)
    · exact ⟨_, rfl⟩
  | releasing i | drainingFree i =>
    simp only [Worker.Ok, hpc, hidle] at hat
    rcases hat.1 with hp | hp <;> cases hp
  | allocating i =>
    simp only [Worker.Ok, hpc, hidle] at hat
    obtain ⟨⟨_, hp⟩, -⟩ := hat
    rcases hp with hp | hp <;> cases hp

/-- A call that has the mutex returns. -/
theorem exists_leave {c : Call} (h : Ok ctx mem σ) (hc : σ.alloc.phase (some t) = .inside c) :
    ∃ σ', σ.leave t = some σ' := by
  have hleave : ∀ r, σ.alloc.global.body c = some r → ∃ alloc, σ.alloc.step (.leave (some t)) = some alloc :=
    fun r hr => ⟨_, FreeList.System.step_leave_eq_some.mpr ⟨c, r.1, r.2, hc, hr, rfl⟩⟩
  have hbind : ∀ alloc w, σ.alloc.step (.leave (some t)) = some alloc →
      (σ.workers t).returned (answer σ.alloc (some t)) = some w → ∃ σ', σ.leave t = some σ' :=
    fun alloc w halloc hw => ⟨_, Option.bind_eq_some_iff.mpr ⟨alloc, halloc, Option.map_eq_some_iff.mpr ⟨w, hw, rfl⟩⟩⟩
  have hat := h.worker t
  have hfree : ∀ i, (σ.workers t).pc ≠ .unstarted → (σ.workers t).pc ≠ .finished →
      CallsAt (σ.alloc.phase (some t)) (.free ((σ.workers t).ptrs i)) → (σ.workers t).ptrs i ≠ 0 →
      ∃ r, σ.alloc.global.body c = some r := by
    intro i hstarted hfinished hcalls hp
    obtain ⟨⟨s, hs, -⟩, -⟩ := (h.pool hstarted hfinished).free (k := (t, i)) h.apart hp
    rw [← Global.myFree_heap] at hs
    obtain ⟨g, hg, -⟩ := Option.map_eq_some_iff.mp hs
    obtain rfl := hcalls.inside hc
    exact ⟨(g, 0), Option.map_eq_some_iff.mpr ⟨g, hg, rfl⟩⟩
  cases hpc : (σ.workers t).pc <;> simp only [Worker.Ok, hpc] at hat
  case releasing i =>
    obtain ⟨r, hr⟩ := hfree i (by simp [hpc]) (by simp [hpc]) hat.1 hat.2.1
    obtain ⟨alloc, halloc⟩ := hleave r hr
    exact hbind alloc _ halloc (by rw [Worker.returned, hpc])
  case drainingFree i =>
    obtain ⟨r, hr⟩ := hfree i (by simp [hpc]) (by simp [hpc]) hat.1 hat.2.1
    obtain ⟨alloc, halloc⟩ := hleave r hr
    exact hbind alloc _ halloc (by rw [Worker.returned, hpc])
  case allocating i =>
    obtain ⟨⟨size, hcalls⟩, -⟩ := hat
    obtain rfl := hcalls.inside hc
    obtain ⟨alloc, halloc⟩ := hleave _ rfl
    by_cases hzero : answer σ.alloc (some t) = 0
    · exact hbind alloc _ halloc (by rw [Worker.returned, hpc]; exact if_pos hzero)
    · exact hbind alloc _ halloc (by rw [Worker.returned, hpc]; exact if_neg hzero)
  case scanning => cases hat.symm.trans hc
  all_goals cases hat.1.symm.trans hc

theorem exists_leaveMain {c : Call} (hctx : ctx.Fits) (h : Ok ctx mem σ) (hc : σ.alloc.phase none = .inside c) :
    ∃ σ', σ.leaveMain = some σ' := by
  have hleave : ∀ r, σ.alloc.global.body c = some r → ∃ alloc, σ.alloc.step (.leave none) = some alloc :=
    fun r hr => ⟨_, FreeList.System.step_leave_eq_some.mpr ⟨c, r.1, r.2, hc, hr, rfl⟩⟩
  have hmain := h.main
  unfold System.leaveMain
  cases hm : σ.main <;> rw [hm] at hmain
  case initializing =>
    obtain ⟨hcalls, hheap, hunstarted⟩ := hmain
    obtain rfl := hcalls.inside hc
    have hempty : ∀ k, σ.held k = 0 := fun k => h.empty (.inl (hunstarted k.1)) k.2
    obtain ⟨s, hinit, -⟩ : ∃ s, myAllocatorInit ctx.poolSize ctx.mapped (.initial mem) = some s ∧
        Pool ctx.slots s σ.alloc.returned σ.held := Pool.init hctx hempty mem
    rw [← hheap, ← Global.myAllocatorInit_heap] at hinit
    obtain ⟨g, hg, -⟩ := Option.map_eq_some_iff.mp hinit
    obtain ⟨alloc, halloc⟩ := hleave (g, 0) (Option.map_eq_some_iff.mpr ⟨g, hg, rfl⟩)
    exact ⟨_, Option.map_eq_some_iff.mpr ⟨alloc, halloc, rfl⟩⟩
  case destroying =>
    obtain rfl := hmain.1.inside hc
    obtain ⟨alloc, halloc⟩ := hleave _ rfl
    exact ⟨_, Option.map_eq_some_iff.mpr ⟨alloc, halloc, rfl⟩⟩
  all_goals cases hmain.1.symm.trans hc

theorem exists_stepMain (h : Ok ctx mem σ) (hidle : ∀ u, σ.alloc.phase u = .idle) (hdone : σ.main ≠ .done) :
    ∃ e σ', σ.step ctx e = some σ' := by
  have hmain := h.main
  cases hm : σ.main with
  | starting =>
    obtain ⟨σ', hs⟩ := exists_callMain (σ := σ) (c := .init ctx.poolSize ctx.mapped) .initializing (hidle none) rfl
    exact ⟨.main, σ', by rw [System.step, System.stepMain, hm]; exact hs⟩
  | creating i =>
    refine ⟨.main, ?_⟩
    rw [System.step, System.stepMain, hm]
    simp only
    split <;> exact ⟨_, rfl⟩
  | joining i =>
    rw [hm] at hmain
    by_cases hi : i < n
    · by_cases hfinished : (σ.workers ⟨i, hi⟩).pc = .finished
      · refine ⟨.main, { σ with main := .joining (i + 1) }, ?_⟩
        rw [System.step, System.stepMain, hm]
        simp only [dif_pos hi, if_pos hfinished]
      · obtain ⟨σ', hs⟩ := h.exists_advance (hidle _) (hmain.2.2.1 _) hfinished
        exact ⟨.advance ⟨i, hi⟩ 0, σ', hs⟩
    · obtain ⟨σ', hs⟩ := exists_callMain (σ := σ) (c := .destroy ctx.unmapped) .destroying (hidle none) rfl
      exact ⟨.main, σ', by rw [System.step, System.stepMain, hm]; simp only [dif_neg hi]; exact hs⟩
  | initializing | destroying =>
    rw [hm, MainOk, hidle] at hmain
    rcases hmain.1 with hp | hp <;> cases hp
  | done => exact absurd hm hdone

theorem goesOn (hctx : ctx.Fits) (h : Ok ctx mem σ) (hdone : σ.main ≠ .done) :
    ∃ e σ', σ.step ctx e = some σ' := by
  by_cases hinside : ∃ u c, σ.alloc.phase u = .inside c
  · obtain ⟨u, c, hc⟩ := hinside
    cases u with
    | none =>
      obtain ⟨σ', hs⟩ := h.exists_leaveMain hctx hc
      exact ⟨.leaveMain, σ', hs⟩
    | some t =>
      obtain ⟨σ', hs⟩ := h.exists_leave hc
      exact ⟨.leave t, σ', hs⟩
  · have hfree : σ.alloc.global.mutex = false := by
      by_contra hheld
      exact hinside (h.lock.disciplined.released (by simpa using hheld))
    by_cases hwaiting : ∃ u c, σ.alloc.phase u = .waiting c
    · obtain ⟨u, c, hc⟩ := hwaiting
      exact ⟨.enter u, _, Option.map_eq_some_iff.mpr
        ⟨_, FreeList.System.step_enter_eq_some.mpr ⟨c, hc, hfree, rfl⟩, rfl⟩⟩
    · refine h.exists_stepMain (fun u => ?_) hdone
      cases hu : σ.alloc.phase u with
      | idle => rfl
      | waiting c => exact absurd ⟨u, c, hu⟩ hwaiting
      | inside c => exact absurd ⟨u, c, hu⟩ hinside

end Ok

/-- What the benchmark keeps in every state. -/
structure Safe (ctx : ThreadContext) (σ : System n) : Prop where
  /-- A call that has returned has released the mutex. -/
  disciplined : σ.alloc.Disciplined
  /-- At most one call has the mutex. -/
  exclusive : ∀ u v c d, σ.alloc.phase u = .inside c → σ.alloc.phase v = .inside d →
    σ.alloc.global.mutex = true ∧ u = v
  /-- No pointer is in two tables, or twice in one. -/
  apart : Apart 0 σ.held
  /-- While the threads run, what they hold are blocks of the pool. -/
  blocks : ∀ t i, (σ.workers t).ptrs i ≠ 0 → ∃ a ∈ ctx.slots, (σ.workers t).ptrs i = a + sizeofHeader
  /-- When all threads have been joined, all blocks are free again. -/
  whole : σ.main = .joining n ∨ σ.main = .destroying → IsList σ.alloc.global.heap ctx.slots
  /-- A thread that has finished has made its allocations and holds nothing. -/
  served : ∀ t, (σ.workers t).pc = .finished → (σ.workers t).left = 0 ∧ ∀ i, (σ.workers t).ptrs i = 0
  goesOn : σ.main ≠ .done → ∃ e σ', σ.step ctx e = some σ'

theorem Ok.exclusive (h : Ok ctx mem σ) {u v : Option (Fin n)} {c d : Call}
    (hu : σ.alloc.phase u = .inside c) (hv : σ.alloc.phase v = .inside d) :
    σ.alloc.global.mutex = true ∧ u = v := by
  obtain ⟨holder, hmutex, hholder⟩ := h.lock
  have hu' : holder = some u := (hholder u).2 (Phase.holds_iff.2 ⟨c, hu⟩)
  have hv' : holder = some v := (hholder v).2 (Phase.holds_iff.2 ⟨d, hv⟩)
  exact ⟨by rw [hmutex, hu']; rfl, Option.some.inj (hu'.symm.trans hv')⟩

theorem Ok.whole (h : Ok ctx mem σ) (hm : σ.main = .joining n ∨ σ.main = .destroying) :
    IsList σ.alloc.global.heap ctx.slots := by
  have hmain := h.main
  rcases hm with hm | hm <;> rw [hm] at hmain
  · exact hmain.2.1.whole fun k => h.empty (.inr (hmain.2.2.2 k.1 k.1.2)) k.2
  · exact hmain.2.1.whole fun k => h.empty (.inr (hmain.2.2 k.1)) k.2

theorem Ok.safe (hctx : ctx.Fits) (h : Ok ctx mem σ) : Safe ctx σ := by
  refine ⟨h.lock.disciplined, fun _ _ _ _ => h.exclusive, h.apart, fun t i hp => ?_, h.whole,
    fun t hpc => ?_, h.goesOn hctx⟩
  · have hstarted : (σ.workers t).pc ≠ .unstarted := fun hpc => hp (h.empty (.inl hpc) i)
    have hfinished : (σ.workers t).pc ≠ .finished := fun hpc => hp (h.empty (.inr hpc) i)
    exact (h.pool hstarted hfinished).slot (held_self (k := (t, i)) hp)
  · have hat := h.worker t
    simp only [Worker.Ok, hpc] at hat
    exact hat.2

theorem benchSafe (ctx : ThreadContext) (hctx : ctx.Fits) (mem : Mem) (events : List (Event n)) (σ : System n)
    (hr : run (System.step ctx) (System.start n mem) events = some σ) : Safe ctx σ :=
  (run_inv (I := Ok ctx mem) (fun _ _ _ h hs => h.step hctx hs) (Ok.start ctx mem) hr).safe hctx

/-- One block for each of two threads: the second allocates while the first is about to. -/
def twoThreads (a b : Fin 2) : List (Event 2) :=
  [.main, .enter none, .leaveMain, .main, .main, .advance a 0, .advance b 0, .advance a 3, .advance b 1,
    .enter (some b), .leave b, .enter (some a), .leave a, .main, .advance b 0, .advance b 0,
    .enter (some b), .leave b]

def twoContext : ThreadContext := ⟨1, 4128, 256, some 65536, true⟩

theorem benchSafe_twoThreads : ∃ σ, run (System.step twoContext) (System.start 2 fun _ => 0) (twoThreads 0 1) = some σ ∧
    (σ.workers 0).ptrs ⟨0, by decide⟩ = 67608 ∧ (σ.workers 1).ptrs ⟨0, by decide⟩ = 0 ∧ Safe twoContext σ := by
  have heval : (run (System.step twoContext) (System.start 2 fun _ => 0) (twoThreads 0 1)).map
      (fun σ => ((σ.workers 0).ptrs ⟨0, by decide⟩, (σ.workers 1).ptrs ⟨0, by decide⟩)) = some (67608, 0) := by decide +kernel
  obtain ⟨σ, hr, hptrs⟩ := Option.map_eq_some_iff.mp heval
  obtain ⟨h0, h1⟩ := Prod.mk.inj hptrs
  refine ⟨σ, hr, h0, h1, benchSafe twoContext ⟨by decide, ?_, by decide⟩ (fun _ => 0) (twoThreads 0 1) σ hr⟩
  rintro base heq
  cases heq
  decide

end System

end OsExercises.FreeList.Bench
