import OsExercises.FreeList.Bench
import OsExercises.FreeList.Runs

/-!
# What the threads of the benchmark hold

`Pool` ties the free list to what the tables of the threads hold, over the invariant of `SlotSet`;
`Ok` adds where each thread is and that only a call in progress has the mutex.
-/

namespace OsExercises.FreeList.Bench
open Transition

/-- The headers on the list after the initialisation. -/
def ThreadContext.slots (ctx : ThreadContext) : List Nat :=
  match ctx.mapped with
  | none => []
  | some base => (List.range' 1 (slotCount ctx.poolSize - 1)).map fun k => base + HEADER_BLOCK_SIZE * k

/-- The pool is one that the allocator can initialise. -/
structure ThreadContext.Fits (ctx : ThreadContext) : Prop where
  size : ctx.poolSize < 2 ^ 64
  mapped : ∀ base, ctx.mapped = some base → Mapped base (trueSize ctx.poolSize)
  count : slotCount ctx.poolSize < 2 ^ 31

/-! ### The pool and the tables -/

/-- The blocks of the pool are on the list or held; `mmap` may have failed. -/
def Pool {K : Type*} (slots : List Nat) (s : State) (returned : List Nat) (f : K → Nat) : Prop :=
  (∃ v l, Inv slots s.pool s.poolSize s v l ∧ slots.Pairwise (· < ·) ∧
    (∀ p, p ∈ v.pointers ↔ Held 0 f p) ∧ ∀ p ∈ v.returned, p ∈ returned) ∨
  s.pool = 0 ∧ s.headerStart = 0 ∧ slots = [] ∧ ∀ k, f k = 0

namespace Pool

variable {K : Type*} {slots returned : List Nat} {s s' : State} {f : K → Nat} {k : K} {size p : Nat}

theorem init {ctx : ThreadContext} (hctx : ctx.Fits) (hf : ∀ k, f k = 0) (mem : Mem) :
    ∃ s, myAllocatorInit ctx.poolSize ctx.mapped (.initial mem) = some s ∧ Pool ctx.slots s returned f := by
  unfold ThreadContext.slots
  cases hmapped : ctx.mapped with
  | none => exact ⟨_, rfl, .inr ⟨rfl, rfl, rfl, hf⟩⟩
  | some base =>
    obtain ⟨s, hs, hwf, hpool, -⟩ :=
      init_spec (s := State.initial mem) rfl hctx.size (hctx.mapped base hmapped) hctx.count
    have hslots : s.slot = fun k => base + HEADER_BLOCK_SIZE * k := by
      funext k
      rw [State.slot, hpool]
    rw [hslots] at hwf
    refine ⟨s, hs, .inl ⟨_, _, Inv.start hwf, hwf.sorted, fun p => ?_, fun p hp => absurd hp List.not_mem_nil⟩⟩
    exact iff_of_false List.not_mem_nil (not_held_of_empty hf)

theorem slot (h : Pool slots s returned f) (hp : Held 0 f p) : ∃ a ∈ slots, p = a + 8 := by
  rcases h with ⟨v, l, h, -, hheld, -⟩ | ⟨-, -, -, hnone⟩
  · exact h.returned p (h.live p ((hheld p).mpr hp))
  · exact absurd hp (not_held_of_empty hnone)

/-- When nothing is held the list is what it was after the initialisation. -/
theorem whole (h : Pool slots s returned f) (hf : ∀ k, f k = 0) : IsList s slots := by
  rcases h with ⟨v, l, h, hsorted, hheld, -⟩ | ⟨-, hstart, rfl, -⟩
  · have hmem : ∀ a, a ∈ l ↔ a ∈ slots := by
      intro a
      rw [h.mem_iff, hheld]
      exact and_iff_left (not_held_of_empty hf)
    have hnodup : ∀ {l : List Nat}, l.Pairwise (· < ·) → l.Nodup := fun h => h.imp fun hlt => hlt.ne
    have hperm := (List.perm_ext_iff_of_nodup (hnodup h.wf.sorted) (hnodup hsorted)).mpr hmem
    obtain rfl : l = slots := hperm.eq_of_pairwise (fun _ _ _ _ hab hba => absurd hba hab.asymm)
      h.wf.sorted hsorted
    exact h.wf.chain
  · exact chain_nil.mpr hstart

variable [DecidableEq K]

theorem malloc (h : Pool slots s returned f) (hk : f k = 0) (hs : myMalloc size s = (s', p)) :
    p = 0 ∧ Pool slots s' returned f ∨ p ≠ 0 ∧ ¬ Held 0 f p ∧
      Pool slots s' (p :: returned) (Function.update f k p) := by
  rcases h with ⟨v, l, h, hsorted, hheld, hreturned⟩ | ⟨hpool, h⟩
  · by_cases hnull : BLOCK_SIZE < size ∨ l = []
    · rw [h.wf.malloc_null hnull] at hs
      cases hs
      exact .inl ⟨rfl, .inl ⟨v, l, h, hsorted, hheld, hreturned⟩⟩
    · cases l with
      | nil => exact absurd (.inr rfl) hnull
      | cons a t =>
        rw [h.wf.malloc_cons (Nat.le_of_not_lt fun hlt => hnull (.inl hlt))] at hs
        cases hs
        have hfresh : ¬ Held 0 f (a + 8) := fun ha => ((h.mem_iff a).mp List.mem_cons_self).2 ((hheld _).mpr ha)
        refine .inr ⟨nofun, hfresh, .inl ⟨v.record size (a + 8), t, h.malloc_cons, hsorted, ?_, ?_⟩⟩
        · intro q
          rw [Client.View.record_of_ne v size (Nat.succ_ne_zero _), held_fill hk (Nat.succ_ne_zero _), ← hheld]
          exact List.mem_cons
        · rw [Client.View.record_of_ne v size (Nat.succ_ne_zero _)]
          exact List.forall_mem_cons.mpr
            ⟨List.mem_cons_self, fun q hq => List.mem_cons_of_mem _ (hreturned q hq)⟩
  · rw [myMalloc, if_pos hpool] at hs
    cases hs
    exact .inl ⟨rfl, .inr ⟨hpool, h⟩⟩

/-- A pointer that is held can be freed, and its block is not on the list. -/
theorem free (h : Pool slots s returned f) (hf : Apart 0 f) (hk : f k ≠ 0) :
    (∃ s', myFree (f k) s = some s' ∧ Pool slots s' returned (Function.update f k 0)) ∧
      ¬ OnChain (next s.mem) 0 s.headerStart (sizeSub (f k) sizeofHeader) ∧ f k ∈ returned := by
  rcases h with ⟨v, l, h, hsorted, hheld, hreturned⟩ | ⟨-, -, -, hnone⟩
  · have hlive : f k ∈ v.pointers := (hheld _).mpr (held_self hk)
    obtain ⟨b, hb, hkb⟩ := h.returned _ (h.live _ hlive)
    obtain ⟨s', l', hs', h', -⟩ := h.free (h.live _ hlive)
    refine ⟨⟨s', hs', .inl ⟨v.release (f k), l', ?_, hsorted, ?_, hreturned⟩⟩, ?_, hreturned _ (h.live _ hlive)⟩
    · rw [h'.pool, h'.poolSize]
      exact h'
    · intro q
      rw [Client.View.mem_pointers_release, hheld, held_clear hf]
    · rw [hkb, h.wf.sizeSub_payload (h.initial b hb)]
      intro hon
      exact h.notMem_of_live (hkb ▸ hlive) (h.wf.chain.mem_iff.mpr hon)
  · exact absurd (hnone k) hk

end Pool

/-! ### The threads -/

/-- The thread is in the call `c`. -/
def CallsAt (p : Phase) (c : Call) : Prop := p = .waiting c ∨ p = .inside c

/-- What a thread knows of its table where it is. -/
def Worker.Ok (w : Worker) (p : Phase) : Prop :=
  match w.pc with
  | .unstarted => p = .idle ∧ ∀ i, w.ptrs i = 0
  | .scanning _ => p = .idle
  | .releasing i => CallsAt p (.free (w.ptrs i)) ∧ w.ptrs i ≠ 0 ∧ w.left ≠ 0
  | .requesting i => p = .idle ∧ w.ptrs i = 0 ∧ w.left ≠ 0
  | .allocating i => (∃ size, CallsAt p (.malloc size)) ∧ w.ptrs i = 0 ∧ w.left ≠ 0
  | .draining i => p = .idle ∧ w.left = 0 ∧ ∀ j : Index, j.1 < i → w.ptrs j = 0
  | .drainingFree i => CallsAt p (.free (w.ptrs i)) ∧ w.ptrs i ≠ 0 ∧ w.left = 0 ∧ ∀ j < i, w.ptrs j = 0
  | .finished => p = .idle ∧ w.left = 0 ∧ ∀ i, w.ptrs i = 0

theorem CallsAt.enter {c d : Call} (h : CallsAt (.waiting d) c) : CallsAt (.inside d) c := by
  rcases h with h | h <;> cases h
  exact .inr rfl

theorem CallsAt.inside {c d : Call} {p : Phase} (h : CallsAt p c) (hp : p = .inside d) : c = d := by
  subst hp
  rcases h with h | h <;> cases h
  rfl

theorem heap_of_free {g g' : Global} {ptr p : Nat} (h : g.body (.free ptr) = some (g', p)) :
    myFree ptr g.heap = some g'.heap ∧ p = 0 := by
  obtain ⟨g₁, hg₁, heq⟩ := Option.map_eq_some_iff.mp h
  cases heq
  exact ⟨by rw [← Global.myFree_heap, hg₁]; rfl, rfl⟩

theorem heap_of_malloc {g g' : Global} {size p : Nat} (h : g.body (.malloc size) = some (g', p)) :
    myMalloc size g.heap = (g'.heap, p) := by
  have hg : Global.myMalloc size g = (g', p) := Option.some.inj h
  rw [← Global.myMalloc_heap, hg]

/-- The call of the thread obtains the mutex. -/
theorem Worker.Ok.enter {w : Worker} {c : Call} (h : w.Ok (.waiting c)) : w.Ok (.inside c) := by
  unfold Worker.Ok at h ⊢
  split at h
  case h_3 => exact ⟨h.1.enter, h.2⟩
  case h_5 =>
    obtain ⟨⟨size, hsize⟩, h⟩ := h
    exact ⟨⟨size, hsize.enter⟩, h⟩
  case h_7 => exact ⟨h.1.enter, h.2⟩
  case h_2 => cases h
  all_goals cases h.1

namespace System.Advance

variable {ctx : ThreadContext} {w : Worker} {r : Nat} {pc : Pc} {c : Option Call} {p : Phase}

theorem started (h : Advance ctx w r pc c) : w.pc ≠ .unstarted := by
  cases h <;> simp_all

theorem not_finished (h : Advance ctx w r pc c) : w.pc ≠ .finished := by
  cases h <;> simp_all

theorem started' (h : Advance ctx w r pc c) : pc ≠ .unstarted := by
  cases h <;> nofun

theorem ok (h : Advance ctx w r pc c) (hw : w.Ok p) : p = .idle ∧
    (w.goto pc).Ok (c.elim .idle .waiting) := by
  unfold Worker.Ok at hw
  cases h with
  | stop hpc hleft =>
    rw [hpc] at hw
    exact ⟨hw, rfl, hleft, fun j hj => absurd hj (Nat.not_lt_zero _)⟩
  | request hpc hleft hp =>
    rw [hpc] at hw
    exact ⟨hw, rfl, hp, hleft⟩
  | release hpc hleft hp =>
    rw [hpc] at hw
    exact ⟨hw, .inl rfl, hp, hleft⟩
  | scan hpc =>
    rw [hpc] at hw
    exact ⟨hw, rfl⟩
  | allocate hpc =>
    rw [hpc] at hw
    exact ⟨hw.1, ⟨_, .inl rfl⟩, hw.2⟩
  | @drained i hpc hp =>
    rw [hpc] at hw
    refine ⟨hw.1, rfl, hw.2.1, fun j hj => ?_⟩
    rcases Nat.lt_succ_iff_lt_or_eq.mp hj with hlt | heq
    · exact hw.2.2 j hlt
    · rw [Fin.ext heq]
      exact hp
  | drain hpc hp =>
    rw [hpc] at hw
    exact ⟨hw.1, .inl rfl, hp, hw.2⟩
  | finish hpc hi =>
    rw [hpc] at hw
    exact ⟨hw.1, rfl, hw.2.1, fun j => hw.2.2 j (Nat.lt_of_lt_of_le j.2 hi)⟩

end System.Advance

namespace System

variable {n : Nat}

/-- The tables of all threads. -/
def held (σ : System n) : Fin n × Index → Nat := fun k => (σ.workers k.1).ptrs k.2

def PoolOk (ctx : ThreadContext) (σ : System n) : Prop :=
  Pool ctx.slots σ.alloc.global.heap σ.alloc.returned σ.held

/-- Which threads there are where the main thread is. -/
def MainOk (ctx : ThreadContext) (mem : Mem) (σ : System n) : Main → Prop
  | .starting => σ.alloc.phase none = .idle ∧ σ.alloc.global.heap = .initial mem ∧
      ∀ t, (σ.workers t).pc = .unstarted
  | .initializing => CallsAt (σ.alloc.phase none) (.init ctx.poolSize ctx.mapped) ∧
      σ.alloc.global.heap = .initial mem ∧ ∀ t, (σ.workers t).pc = .unstarted
  | .creating i => σ.alloc.phase none = .idle ∧ σ.PoolOk ctx ∧
      ∀ t : Fin n, (σ.workers t).pc = .unstarted ↔ i ≤ t
  | .joining i => σ.alloc.phase none = .idle ∧ σ.PoolOk ctx ∧ (∀ t, (σ.workers t).pc ≠ .unstarted) ∧
      ∀ t : Fin n, t < i → (σ.workers t).pc = .finished
  | .destroying => CallsAt (σ.alloc.phase none) (.destroy ctx.unmapped) ∧ σ.PoolOk ctx ∧
      ∀ t, (σ.workers t).pc = .finished
  | .done => σ.alloc.phase none = .idle ∧ ∀ t, (σ.workers t).pc = .finished

structure Ok (ctx : ThreadContext) (mem : Mem) (σ : System n) : Prop where
  lock : σ.alloc.LockOk
  apart : Apart 0 σ.held
  worker : ∀ t, (σ.workers t).Ok (σ.alloc.phase (some t))
  main : σ.MainOk ctx mem σ.main

variable {ctx : ThreadContext} {mem : Mem} {σ σ' : System n} {t : Fin n} {w : Worker}

theorem held_put {alloc : FreeList.System (Option (Fin n))} {i : Index} {p : Nat}
    (hw : w.ptrs = Function.update (σ.workers t).ptrs i p) :
    (σ.put t w alloc).held = Function.update σ.held (t, i) p := by
  funext ⟨u, j⟩
  show (Function.update σ.workers t w u).ptrs j = _
  by_cases hut : u = t
  · subst hut
    rw [Function.update_self, hw]
    by_cases hji : j = i
    · subst hji
      rw [Function.update_self, Function.update_self]
    · have hne : (u, j) ≠ (u, i) := fun heq => hji (Prod.mk.inj heq).2
      rw [Function.update_of_ne hji, Function.update_of_ne hne, held]
  · have hne : (u, j) ≠ (t, i) := fun heq => hut (Prod.mk.inj heq).1
    rw [Function.update_of_ne hut, Function.update_of_ne hne, held]

theorem held_goto {alloc : FreeList.System (Option (Fin n))} {pc : Pc} :
    (σ.put t ((σ.workers t).goto pc) alloc).held = σ.held := by
  funext ⟨u, j⟩
  show (Function.update σ.workers t _ u).ptrs j = _
  by_cases hut : u = t
  · subst hut
    rw [Function.update_self, held]
    rfl
  · rw [Function.update_of_ne hut, held]

namespace Ok

theorem start (ctx : ThreadContext) (mem : Mem) : Ok ctx mem (.start n mem) :=
  ⟨FreeList.System.LockOk.start mem, apart_of_empty fun _ => rfl, fun _ => ⟨rfl, fun _ => rfl⟩,
    ⟨rfl, rfl, fun _ => rfl⟩⟩

/-- The thread runs. -/
theorem pool (h : Ok ctx mem σ) (hstarted : (σ.workers t).pc ≠ .unstarted)
    (hfinished : (σ.workers t).pc ≠ .finished) : σ.PoolOk ctx := by
  have hmain := h.main
  cases hm : σ.main <;> rw [hm] at hmain
  case starting => exact absurd (hmain.2.2 t) hstarted
  case initializing => exact absurd (hmain.2.2 t) hstarted
  case destroying => exact absurd (hmain.2.2 t) hfinished
  case done => exact absurd (hmain.2 t) hfinished
  all_goals exact hmain.2.1

/-- A step of a thread that runs. -/
theorem moved {alloc : FreeList.System (Option (Fin n))} (h : Ok ctx mem σ)
    (hstarted : (σ.workers t).pc ≠ .unstarted) (hfinished : (σ.workers t).pc ≠ .finished)
    (hlock : alloc.LockOk) (hphase : ∀ u, u ≠ some t → alloc.phase u = σ.alloc.phase u)
    (hw : w.Ok (alloc.phase (some t))) (hstarted' : w.pc ≠ .unstarted)
    (hpool : (σ.put t w alloc).PoolOk ctx)
    (hapart : Apart 0 (σ.put t w alloc).held) :
    Ok ctx mem (σ.put t w alloc) := by
  have hothers : ∀ u, u ≠ t → Function.update σ.workers t w u = σ.workers u :=
    fun u hut => Function.update_of_ne hut ..
  refine ⟨hlock, hapart, fun u => ?_, ?_⟩
  · show (Function.update σ.workers t w u).Ok (alloc.phase (some u))
    by_cases hut : u = t
    · subst hut
      rw [Function.update_self]
      exact hw
    · rw [hothers u hut, hphase _ fun heq => hut (Option.some.inj heq)]
      exact h.worker u
  · have hmain := h.main
    show MainOk ctx mem _ σ.main
    cases hm : σ.main <;> rw [hm] at hmain
    case starting => exact absurd (hmain.2.2 t) hstarted
    case initializing => exact absurd (hmain.2.2 t) hstarted
    case destroying => exact absurd (hmain.2.2 t) hfinished
    case done => exact absurd (hmain.2 t) hfinished
    case creating i =>
      refine ⟨(hphase none nofun).trans hmain.1, hpool, fun u => ?_⟩
      show (Function.update σ.workers t w u).pc = _ ↔ _
      rw [← hmain.2.2]
      by_cases hut : u = t
      · subst hut
        rw [Function.update_self]
        exact iff_of_false hstarted' hstarted
      · rw [hothers u hut]
    case joining i =>
      refine ⟨(hphase none nofun).trans hmain.1, hpool, fun u => ?_, fun u hu => ?_⟩
      · show (Function.update σ.workers t w u).pc ≠ _
        by_cases hut : u = t
        · subst hut
          rw [Function.update_self]
          exact hstarted'
        · rw [hothers u hut]
          exact hmain.2.2.1 u
      · show (Function.update σ.workers t w u).pc = _
        have hut : u ≠ t := by
          rintro rfl
          exact hfinished (hmain.2.2.2 u hu)
        rw [hothers u hut]
        exact hmain.2.2.2 u hu

/-! ### One step -/

theorem advance {r : Nat} (h : Ok ctx mem σ) (hs : σ.advance ctx t r = some σ') : Ok ctx mem σ' := by
  obtain ⟨pc, c, ha, hc⟩ := advance_cases hs
  obtain ⟨hidle, hw⟩ := ha.ok (h.worker t)
  have hstarted : (σ.workers t).pc ≠ .unstarted := ha.started
  have hfinished : (σ.workers t).pc ≠ .finished := ha.not_finished
  rcases hc with ⟨rfl, rfl⟩ | ⟨c, rfl, hcall⟩
  · refine h.moved hstarted hfinished h.lock (fun _ _ => rfl) (hidle ▸ hw) ha.started' ?_ ?_
    · unfold PoolOk
      rw [held_goto]
      exact h.pool hstarted hfinished
    · rw [held_goto]
      exact h.apart
  · obtain ⟨alloc, halloc, rfl⟩ := Option.map_eq_some_iff.mp hcall
    have hlock := h.lock.call halloc
    obtain ⟨-, rfl⟩ := FreeList.System.step_call_eq_some.mp halloc
    refine h.moved hstarted hfinished hlock (fun u hut => Function.update_of_ne hut ..) ?_ ha.started' ?_ ?_
    · show ((σ.workers t).goto pc).Ok (Function.update σ.alloc.phase (some t) (.waiting c) (some t))
      rw [Function.update_self]
      exact hw
    · unfold PoolOk
      rw [held_goto]
      exact h.pool hstarted hfinished
    · rw [held_goto]
      exact h.apart

/-- The call of the main thread obtains the mutex. -/
theorem enterMain {c : Call} (h : Ok ctx mem σ) (hc : σ.alloc.phase none = .waiting c) :
    MainOk ctx mem { σ with alloc := { σ.alloc with
      global := { σ.alloc.global with mutex := true }
      phase := Function.update σ.alloc.phase none (.inside c) } } σ.main := by
  have hmain := h.main
  cases hm : σ.main <;> rw [hm, MainOk, hc] at hmain
  case initializing => exact ⟨hmain.1.enter, hmain.2⟩
  case destroying => exact ⟨hmain.1.enter, hmain.2⟩
  all_goals cases hmain.1

theorem enter {u : Option (Fin n)} (h : Ok ctx mem σ) (hs : σ.enter u = some σ') : Ok ctx mem σ' := by
  obtain ⟨alloc, halloc, rfl⟩ := Option.map_eq_some_iff.mp hs
  have hlock := h.lock.enter halloc
  obtain ⟨c, hc, -, rfl⟩ := FreeList.System.step_enter_eq_some.mp halloc
  refine ⟨hlock, h.apart, fun t => ?_, ?_⟩
  · show (σ.workers t).Ok (Function.update σ.alloc.phase u (.inside c) (some t))
    by_cases hut : some t = u
    · subst hut
      rw [Function.update_self]
      exact (hc ▸ h.worker t).enter
    · rw [Function.update_of_ne hut]
      exact h.worker t
  · cases u with
    | none => exact h.enterMain hc
    | some u =>
      have hmain := h.main
      show MainOk ctx mem _ σ.main
      cases hm : σ.main <;> rw [hm] at hmain <;> exact hmain

/-- `my_free` returns to the thread. -/
theorem freed {alloc : FreeList.System (Option (Fin n))} {i : Index} {pc : Pc} (h : Ok ctx mem σ)
    (hphase : CallsAt (σ.alloc.phase (some t)) (.free ((σ.workers t).ptrs i)))
    (hstarted : (σ.workers t).pc ≠ .unstarted) (hfinished : (σ.workers t).pc ≠ .finished)
    (hk : (σ.workers t).ptrs i ≠ 0) (hs : σ.alloc.step (.leave (some t)) = some alloc)
    (hw : (((σ.workers t).setPtr i 0).goto pc).Ok .idle) (hpc : pc ≠ .unstarted) :
    Ok ctx mem (σ.put t (((σ.workers t).setPtr i 0).goto pc) alloc) := by
  obtain ⟨⟨s, hfree, hpool⟩, hchain, -⟩ := (h.pool hstarted hfinished).free (k := (t, i)) h.apart hk
  obtain ⟨c, g, p, hc, hbody, heq⟩ := FreeList.System.step_leave_eq_some.mp hs
  obtain rfl := hphase.inside hc
  have hlock : alloc.LockOk := by
    refine h.lock.leave (fun ptr hptr => ?_) hs
    obtain rfl : (σ.workers t).ptrs i = ptr := by simpa using hc.symm.trans hptr
    exact hchain
  obtain ⟨hheap, rfl⟩ := heap_of_free hbody
  obtain rfl : s = g.heap := Option.some.inj (hfree.symm.trans hheap)
  subst heq
  refine h.moved hstarted hfinished hlock (fun u hut => Function.update_of_ne hut ..) ?_ hpc ?_ ?_
  · show Worker.Ok _ (Function.update σ.alloc.phase (some t) .idle (some t))
    rw [Function.update_self]
    exact hw
  · unfold PoolOk
    rw [held_put (i := i) (p := 0) rfl]
    exact hpool
  · rw [held_put (i := i) (p := 0) rfl]
    exact h.apart.clear

/-- `my_malloc` returns to the thread. -/
theorem allocated {alloc : FreeList.System (Option (Fin n))} {i : Index} (h : Ok ctx mem σ)
    (hpc : (σ.workers t).pc = .allocating i) (hs : σ.alloc.step (.leave (some t)) = some alloc)
    (hw : (σ.workers t).returned (answer σ.alloc (some t)) = some w) : Ok ctx mem (σ.put t w alloc) := by
  have hat := h.worker t
  simp only [Worker.Ok, hpc] at hat
  obtain ⟨⟨size, hphase⟩, hk, hleft⟩ := hat
  have hstarted : (σ.workers t).pc ≠ .unstarted := by rw [hpc]; nofun
  have hfinished : (σ.workers t).pc ≠ .finished := by rw [hpc]; nofun
  have hlock : alloc.LockOk := by
    refine h.lock.leave (fun ptr hptr => ?_) hs
    rcases hphase with hwait | hin
    · cases hwait.symm.trans hptr
    · cases hin.symm.trans hptr
  obtain ⟨c, g, p, hc, hbody, rfl⟩ := FreeList.System.step_leave_eq_some.mp hs
  obtain rfl := hphase.inside hc
  have hanswer : answer σ.alloc (some t) = p := by
    unfold answer
    rw [hc]
    simp only [hbody, Option.map_some, Option.getD_some]
  rw [hanswer, Worker.returned, hpc] at hw
  have hidle : Function.update σ.alloc.phase (some t) Phase.idle (some t) = .idle := Function.update_self ..
  have hothers : ∀ u, u ≠ some t → Function.update σ.alloc.phase (some t) Phase.idle u = σ.alloc.phase u :=
    fun u hut => Function.update_of_ne hut ..
  rcases (h.pool hstarted hfinished).malloc (k := (t, i)) hk (heap_of_malloc hbody) with
    ⟨rfl, hpool⟩ | ⟨hp, hfresh, hpool⟩
  · obtain rfl := Option.some.inj ((if_pos rfl).symm.trans hw)
    refine h.moved hstarted hfinished hlock hothers ?_ nofun ?_ ?_
    · exact hidle
    · unfold PoolOk
      rw [held_goto]
      exact hpool
    · rw [held_goto]
      exact h.apart
  · obtain rfl := Option.some.inj ((if_neg hp).symm.trans hw)
    refine h.moved hstarted hfinished hlock hothers ?_ nofun ?_ ?_
    · exact hidle
    · unfold PoolOk
      rw [held_put (i := i) (p := p) rfl]
      show Pool ctx.slots g.heap (if p = 0 then _ else _) _
      rw [if_neg hp]
      exact hpool
    · rw [held_put (i := i) (p := p) rfl]
      exact h.apart.fill hfresh

theorem leave (h : Ok ctx mem σ) (hs : σ.leave t = some σ') : Ok ctx mem σ' := by
  obtain ⟨alloc, halloc, hs⟩ := Option.bind_eq_some_iff.mp hs
  obtain ⟨w, hw, rfl⟩ := Option.map_eq_some_iff.mp hs
  have hat := h.worker t
  cases hpc : (σ.workers t).pc with
  | allocating i => exact h.allocated hpc halloc hw
  | releasing i =>
    simp only [Worker.Ok, hpc] at hat
    simp only [Worker.returned, hpc, Option.some.injEq] at hw
    subst hw
    refine h.freed hat.1 (by rw [hpc]; nofun) (by rw [hpc]; nofun) hat.2.1 halloc ?_ nofun
    exact ⟨rfl, Function.update_self .., hat.2.2⟩
  | drainingFree i =>
    simp only [Worker.Ok, hpc] at hat
    simp only [Worker.returned, hpc, Option.some.injEq] at hw
    subst hw
    refine h.freed hat.1 (by rw [hpc]; nofun) (by rw [hpc]; nofun) hat.2.1 halloc ?_ nofun
    refine ⟨rfl, hat.2.2.1, fun j hj => ?_⟩
    by_cases hji : j = i
    · subst hji
      exact Function.update_self ..
    · refine (Function.update_of_ne hji ..).trans (hat.2.2.2 j ?_)
      have hne : j.1 ≠ i.1 := fun heq => hji (Fin.ext heq)
      show j.1 < i.1
      omega
  | unstarted | scanning | requesting | draining | finished =>
    rw [Worker.returned, hpc] at hw
    cases hw

theorem empty (h : Ok ctx mem σ) (hpc : (σ.workers t).pc = .unstarted ∨ (σ.workers t).pc = .finished)
    (i : Index) : σ.held (t, i) = 0 := by
  have hat := h.worker t
  rcases hpc with hpc | hpc <;> simp only [Worker.Ok, hpc] at hat
  · exact hat.2 i
  · exact hat.2.2 i

theorem callMain {c : Call} {m : Main} (h : Ok ctx mem σ) (hs : σ.callMain c m = some σ')
    (hmain : ∀ phase, phase none = .waiting c → MainOk ctx mem { σ with alloc := { σ.alloc with phase } } m) :
    Ok ctx mem σ' := by
  obtain ⟨alloc, halloc, rfl⟩ := Option.map_eq_some_iff.mp hs
  have hlock := h.lock.call halloc
  obtain ⟨-, rfl⟩ := FreeList.System.step_call_eq_some.mp halloc
  exact ⟨hlock, h.apart, h.worker, hmain _ (Function.update_self ..)⟩

theorem create {i : Nat} (h : Ok ctx mem σ) (hm : σ.main = .creating i) (hi : i < n) :
    Ok ctx mem { σ with
      workers := Function.update σ.workers ⟨i, hi⟩
        { pc := .scanning 0, ptrs := fun _ => 0, left := ctx.numAllocations }
      main := .creating (i + 1) } := by
  have hmain := h.main
  rw [hm] at hmain
  obtain ⟨hidle, hpool, hstarted⟩ := hmain
  have hunstarted := (hstarted ⟨i, hi⟩).mpr (Nat.le_refl i)
  have hheld : System.held { σ with
      workers := Function.update σ.workers ⟨i, hi⟩
        { pc := .scanning 0, ptrs := fun _ => 0, left := ctx.numAllocations }
      main := .creating (i + 1) } = σ.held := by
    funext ⟨u, j⟩
    show (Function.update σ.workers ⟨i, hi⟩ _ u).ptrs j = (σ.workers u).ptrs j
    by_cases hut : u = ⟨i, hi⟩
    · subst hut
      rw [Function.update_self]
      exact (h.empty (.inl hunstarted) j).symm
    · rw [Function.update_of_ne hut]
  refine ⟨h.lock, hheld ▸ h.apart, fun u => ?_, hidle, ?_, fun u => ?_⟩
  · have hat := h.worker u
    by_cases hut : u = ⟨i, hi⟩
    · subst hut
      simp only [Worker.Ok, hunstarted] at hat
      simp only [Function.update_self]
      exact hat.1
    · simp only [Function.update_of_ne hut]
      exact hat
  · unfold PoolOk
    rw [hheld]
    exact hpool
  · have hu := hstarted u
    by_cases hut : u = ⟨i, hi⟩
    · subst hut
      simp only [Function.update_self]
      exact iff_of_false nofun (Nat.not_succ_le_self i)
    · simp only [Function.update_of_ne hut]
      rw [hu]
      have hne : u.1 ≠ i := fun heq => hut (Fin.ext heq)
      omega

theorem stepMain (h : Ok ctx mem σ) (hs : σ.stepMain ctx = some σ') : Ok ctx mem σ' := by
  have hmain := h.main
  cases hm : σ.main with
  | starting =>
    rw [hm] at hmain
    rw [System.stepMain, hm] at hs
    exact h.callMain hs fun phase hphase => ⟨.inl hphase, hmain.2⟩
  | creating i =>
    rw [System.stepMain, hm] at hs
    simp only at hs
    split at hs
    · next hi =>
      obtain rfl := Option.some.inj hs
      exact h.create hm hi
    · next hi =>
      obtain rfl := Option.some.inj hs
      rw [hm] at hmain
      refine ⟨h.lock, h.apart, h.worker, hmain.1, hmain.2.1, fun t ht => ?_, fun t ht => absurd ht (Nat.not_lt_zero t)⟩
      have := (hmain.2.2 t).mp ht
      have := t.2
      omega
  | joining i =>
    rw [hm] at hmain
    rw [System.stepMain, hm] at hs
    simp only at hs
    split at hs
    · next hi =>
      split at hs
      · next hfinished =>
        obtain rfl := Option.some.inj hs
        refine ⟨h.lock, h.apart, h.worker, hmain.1, hmain.2.1, hmain.2.2.1, fun t ht => ?_⟩
        rcases Nat.lt_succ_iff_lt_or_eq.mp ht with hlt | heq
        · exact hmain.2.2.2 t hlt
        · rw [Fin.ext (b := ⟨i, hi⟩) heq]
          exact hfinished
      · cases hs
    · next hi =>
      refine h.callMain hs fun phase hphase => ⟨.inl hphase, hmain.2.1, fun t => hmain.2.2.2 t ?_⟩
      exact Nat.lt_of_lt_of_le t.2 (Nat.le_of_not_lt hi)
  | initializing | destroying | done =>
    rw [System.stepMain, hm] at hs
    cases hs

theorem leaveMain (hctx : ctx.Fits) (h : Ok ctx mem σ) (hs : σ.leaveMain = some σ') : Ok ctx mem σ' := by
  have hmain := h.main
  have hidle : ∀ alloc, σ.alloc.step (.leave none) = some alloc → alloc.phase none = .idle ∧
      ∀ t, alloc.phase (some t) = σ.alloc.phase (some t) := by
    intro alloc halloc
    obtain ⟨c, g, p, -, -, rfl⟩ := FreeList.System.step_leave_eq_some.mp halloc
    have hself : Function.update σ.alloc.phase none Phase.idle none = .idle := Function.update_self ..
    have hothers : ∀ t, Function.update σ.alloc.phase none Phase.idle (some t) = σ.alloc.phase (some t) :=
      fun t => Function.update_of_ne (Option.some_ne_none t) ..
    exact ⟨hself, hothers⟩
  have hlock : ∀ alloc c, CallsAt (σ.alloc.phase none) c → (∀ ptr, c ≠ .free ptr) →
      σ.alloc.step (.leave none) = some alloc → alloc.LockOk := by
    intro alloc c hc hfree halloc
    refine h.lock.leave (fun ptr hptr => ?_) halloc
    exact absurd (hc.inside hptr) (hfree ptr)
  cases hm : σ.main <;> rw [hm] at hmain <;> rw [System.leaveMain, hm] at hs
  case initializing =>
    obtain ⟨alloc, halloc, rfl⟩ := Option.map_eq_some_iff.mp hs
    obtain ⟨hidle, hphase⟩ := hidle alloc halloc
    obtain ⟨hcalls, hheap, hunstarted⟩ := hmain
    refine ⟨hlock alloc _ hcalls nofun halloc, h.apart, fun t => ?_, hidle, ?_, ?_⟩
    · rw [hphase]
      exact h.worker t
    · obtain ⟨c, g, p, hc, hbody, rfl⟩ := FreeList.System.step_leave_eq_some.mp halloc
      obtain rfl := hcalls.inside hc
      have hempty : ∀ k, σ.held k = 0 := fun k => h.empty (.inl (hunstarted k.1)) k.2
      obtain ⟨s, hinit, hpool⟩ := Pool.init hctx hempty mem
      obtain ⟨g₁, hg₁, heq⟩ := Option.map_eq_some_iff.mp hbody
      cases heq
      have hg : some g.heap = some s := by
        rw [← hinit, ← hheap, ← Global.myAllocatorInit_heap, hg₁]
        rfl
      obtain rfl := Option.some.inj hg
      exact hpool
    · exact fun t => iff_of_true (hunstarted t) (Nat.zero_le _)
  case destroying =>
    obtain ⟨alloc, halloc, rfl⟩ := Option.map_eq_some_iff.mp hs
    obtain ⟨hidle, hphase⟩ := hidle alloc halloc
    refine ⟨hlock alloc _ hmain.1 nofun halloc, h.apart, fun t => ?_, hidle, hmain.2.2⟩
    rw [hphase]
    exact h.worker t
  all_goals cases hs

theorem step (hctx : ctx.Fits) {e : Event n} (h : Ok ctx mem σ) (hs : σ.step ctx e = some σ') :
    Ok ctx mem σ' := by
  cases e with
  | main => exact h.stepMain hs
  | advance t r => exact h.advance hs
  | enter t => exact h.enter hs
  | leaveMain => exact h.leaveMain hctx hs
  | leave t => exact h.leave hs

end Ok
end System

end OsExercises.FreeList.Bench
