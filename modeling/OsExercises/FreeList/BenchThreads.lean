import OsExercises.FreeList.BenchInvariant
import OsExercises.FreeList.Isolation

/-!
# The benchmark on the thread-local allocator

`thread_fn` of `src/exercise10/task_3/membench.c` with `init_per_thread`: each thread makes a pool of its own,
allocates and frees through its table, frees what is left and gives the pool back. The accesses of the threads
to the memory interleave.
-/

namespace OsExercises.FreeList.Membench
open Bench ThreadLocal MemProgram Client Transition

/-- A thread of the benchmark between two turns. -/
structure Running where
  worker : Worker
  statics : Statics

namespace Running

def start : Running := ⟨⟨.unstarted, fun _ => 0, 0⟩, ⟨0, 0, 0⟩⟩

def goto (l : Running) (pc : Pc) : Running := { l with worker := l.worker.goto pc }

/-- A call of `my_free` for an entry of the table. -/
def release (l : Running) (i : Index) (pc : Pc) : MemProgram Running := do
  let v ← ThreadLocal.myFree (l.worker.ptrs i) l.statics
  pure ⟨(l.worker.setPtr i 0).goto pc, v⟩

/-- A call of `my_malloc` for an entry of the table. -/
def request (l : Running) (i : Index) (size : Nat) : MemProgram Running := do
  let (v, p) ← ThreadLocal.myMalloc size l.statics
  -- no more space
  if p = 0 then pure ⟨l.worker.goto (.scanning (i + 1)), v⟩
  else pure ⟨{ (l.worker.setPtr i p).goto (.scanning (i + 1)) with left := l.worker.left - 1 }, v⟩

end Running

/-- One turn of `thread_fn`; `r` is the random number, if it draws one. -/
def threadFn (ctx : ThreadContext) (l : Running) (r : Nat) : Option (MemProgram Running) :=
  match l.worker.pc with
  | .unstarted => some do
    let v ← ThreadLocal.myAllocatorInit ctx.poolSize ctx.mapped l.statics
    pure ⟨⟨.scanning 0, fun _ => 0, ctx.numAllocations⟩, v⟩
  | .scanning i =>
    if l.worker.left = 0 then some (pure (l.goto (.draining 0)))
    else if h : i < ALLOCATION_BUFFER_SIZE then
      if l.worker.ptrs ⟨i, h⟩ = 0 then some (pure (l.goto (.requesting ⟨i, h⟩)))
      else if r % 2 = 0 then some (l.release ⟨i, h⟩ (.requesting ⟨i, h⟩))
      else some (pure (l.goto (.scanning (i + 1))))
    else some (pure (l.goto (.scanning 0)))
  | .requesting i => some (l.request i (sizeMul ctx.allocSize (1 + r % MAX_ALLOC_MULTIPLIER)))
  | .draining i =>
    if h : i < ALLOCATION_BUFFER_SIZE then
      if l.worker.ptrs ⟨i, h⟩ = 0 then some (pure (l.goto (.draining (i + 1))))
      else some (l.release ⟨i, h⟩ (.draining (i + 1)))
    else some (pure ⟨l.worker.goto .finished, ThreadLocal.myAllocatorDestroy ctx.unmapped l.statics⟩)
  | _ => none

def pool (ctx : ThreadContext) : PoolArgs := ⟨ctx.poolSize, ctx.mapped⟩

/-! ### The pool and the table -/

/-- What the table holds is what the allocator has handed out. -/
def Owns (ctx : ThreadContext) (s : State) (f : Index → Nat) : Prop :=
  ∃ v, ThreadLocal.Ok (pool ctx) s v ∧ Apart 0 f ∧ ∀ p, p ∈ v.pointers ↔ Held 0 f p

variable {ctx : ThreadContext} {s s' : State} {f : Index → Nat} {i : Index} {w : Statics} {m m' : Mem}
  {l : Running} {p : MemProgram Running} {r size q : Nat} {v : View}

namespace Owns

theorem malloc (h : Owns ctx s f) (hi : f i = 0) (hs : FreeList.myMalloc size s = (s', q)) :
    q = 0 ∧ Owns ctx s' f ∨ q ≠ 0 ∧ Owns ctx s' (Function.update f i q) := by
  obtain ⟨v, hok, hf, hheld⟩ := h
  obtain ⟨σ, hσ, hok'⟩ := hok.op (o := .malloc size) rfl
  obtain ⟨-, s'', q', hs', rfl⟩ := step_malloc_eq_some.mp hσ
  obtain ⟨rfl, rfl⟩ := Prod.mk.inj (hs.symm.trans (Option.some.inj hs'))
  by_cases hq : q = 0
  · subst hq
    exact .inl ⟨rfl, v.record size 0, hok', hf, hheld⟩
  · have hpointers : (v.record size q).pointers = q :: v.pointers := by
      rw [View.record_of_ne v size hq]
      rfl
    have hfresh : ¬ Held 0 f q := by
      rw [← hheld]
      exact (List.nodup_cons.mp (hpointers ▸ hok'.nodup)).1
    refine .inr ⟨hq, v.record size q, hok', hf.fill hfresh, fun p => ?_⟩
    rw [hpointers, List.mem_cons, held_fill hi hq, hheld]

theorem free (h : Owns ctx s f) (hi : f i ≠ 0) :
    ∃ s', FreeList.myFree (f i) s = some s' ∧ Owns ctx s' (Function.update f i 0) := by
  obtain ⟨v, hok, hf, hheld⟩ := h
  have hlive : f i ∈ v.pointers := (hheld _).mpr (held_self hi)
  obtain ⟨σ, hσ, hok'⟩ := hok.op (o := .free (f i)) (decide_eq_true (hok.live hlive))
  obtain ⟨-, s', hs', rfl⟩ := step_free_eq_some.mp hσ
  refine ⟨s', hs', v.release (f i), hok', hf.clear, fun p => ?_⟩
  rw [View.mem_pointers_release, held_clear hf, hheld]

theorem within_malloc (h : Owns ctx (w.heap m) f) (size : Nat) :
    (ThreadLocal.myMalloc size w).Within (pool ctx).region m := by
  obtain ⟨v, hok, -, -⟩ := h
  exact (within_bind.mp (hok.within_callOp (l := ⟨w, v⟩) (o := .malloc size) rfl)).1

theorem within_free (h : Owns ctx (w.heap m) f) (hi : f i ≠ 0) :
    (ThreadLocal.myFree (f i) w).Within (pool ctx).region m := by
  obtain ⟨v, hok, -, hheld⟩ := h
  have hpermits : permits v (.free (f i)) = true := decide_eq_true (hok.live ((hheld _).mpr (held_self hi)))
  exact (within_bind.mp (hok.within_callOp (l := ⟨w, v⟩) hpermits)).1

theorem congr (h : Owns ctx (w.heap m) f) (hm : Set.EqOn m m' (pool ctx).region) : Owns ctx (w.heap m') f := by
  obtain ⟨v, hok, h⟩ := h
  exact ⟨v, hok.congr hm, h⟩

/-- Nothing is handed out. -/
theorem of_unmapped (hs : s.pool = 0) (hf : ∀ i, f i = 0) : Owns ctx s f :=
  ⟨View.empty, .inr ⟨hs, rfl, rfl⟩, apart_of_empty hf, fun _ => iff_of_false List.not_mem_nil (not_held_of_empty hf)⟩

end Owns

theorem pool_myMalloc (size : Nat) (s : State) : (FreeList.myMalloc size s).1.pool = s.pool := by
  unfold FreeList.myMalloc
  split
  · rfl
  · split
    · rfl
    · split <;> rfl

theorem pool_myFree (hs : FreeList.myFree q s = some s') : s'.pool = s.pool := by
  unfold FreeList.myFree at hs
  split at hs
  · cases hs
    rfl
  · dsimp only at hs
    split at hs
    · cases hs
      rfl
    · obtain ⟨c, -, hs⟩ := Option.bind_eq_some_iff.mp hs
      split at hs <;> cases hs <;> rfl

namespace Running

/-- What a thread knows where it is. -/
def At (ctx : ThreadContext) (l : Running) : Prop :=
  match l.worker.pc with
  | .unstarted => l.statics.pool = 0 ∧ ∀ i, l.worker.ptrs i = 0
  | .scanning _ => l.statics.pool = 0 → ctx.mapped = none
  | .requesting i => (l.statics.pool = 0 → ctx.mapped = none) ∧ l.worker.ptrs i = 0 ∧ l.worker.left ≠ 0
  | .draining i => (l.statics.pool = 0 → ctx.mapped = none) ∧ l.worker.left = 0 ∧
      ∀ j : Index, j.1 < i → l.worker.ptrs j = 0
  | .finished => l.worker.left = 0 ∧ (∀ i, l.worker.ptrs i = 0) ∧ (ctx.unmapped = true → l.statics.pool = 0)
  | _ => False

structure Ok (ctx : ThreadContext) (l : Running) (m : Mem) : Prop where
  owns : Owns ctx (l.statics.heap m) l.worker.ptrs
  place : l.At ctx

/-- The program stays in the pool and comes to an end where all is well. -/
def Does (ctx : ThreadContext) (p : MemProgram Running) (m : Mem) : Prop :=
  p.Within (pool ctx).region m ∧ ∃ l' m', p.run m = some (l', m') ∧ Ok ctx l' m'

theorem does_pure (h : Owns ctx (l.statics.heap m) l.worker.ptrs) (hat : l.At ctx) : Does ctx (pure l) m :=
  ⟨trivial, l, m, rfl, h, hat⟩

theorem does_release (h : Owns ctx (l.statics.heap m) l.worker.ptrs) (hi : l.worker.ptrs i ≠ 0) {pc : Pc}
    (hat : ∀ w, w.pool = l.statics.pool → At ctx ⟨(l.worker.setPtr i 0).goto pc, w⟩) :
    Does ctx (l.release i pc) m := by
  obtain ⟨s', hs', howns⟩ := h.free hi
  refine ⟨within_bind.mpr ⟨h.within_free hi, fun _ _ _ => trivial⟩,
    ⟨(l.worker.setPtr i 0).goto pc, (parts s').1⟩, (parts s').2, ?_, howns, hat _ (pool_myFree hs')⟩
  simp only [release, bind_eq, run_bind, run_myFree, hs']
  rfl

theorem does_request (h : Owns ctx (l.statics.heap m) l.worker.ptrs) (hi : l.worker.ptrs i = 0) (size : Nat)
    (hmade : l.statics.pool = 0 → ctx.mapped = none) : Does ctx (l.request i size) m := by
  obtain ⟨s', q, hs⟩ : ∃ s' q, FreeList.myMalloc size (l.statics.heap m) = (s', q) := ⟨_, _, rfl⟩
  have hpool : (parts s').1.pool = l.statics.pool := by
    have hsame := pool_myMalloc size (l.statics.heap m)
    rwa [hs] at hsame
  refine ⟨within_bind.mpr ⟨h.within_malloc size, fun x _ _ => ?_⟩, ?_⟩
  · obtain ⟨v, p⟩ := x
    dsimp only
    split <;> trivial
  · simp only [request, bind_eq, run_bind, run_myMalloc hs, Option.bind_some]
    rcases h.malloc hi hs with ⟨rfl, howns⟩ | ⟨hq, howns⟩
    · exact ⟨_, _, rfl, howns, fun h0 => hmade (hpool ▸ h0)⟩
    · rw [if_neg hq]
      exact ⟨_, _, rfl, howns, fun h0 => hmade (hpool ▸ h0)⟩

theorem does_init (hctx : (pool ctx).Fits) (h : Owns ctx (w.heap m) f) (hf : ∀ i, f i = 0) (left : Nat) :
    Does ctx ((ThreadLocal.myAllocatorInit ctx.poolSize ctx.mapped w).bind fun v =>
      pure ⟨⟨.scanning 0, fun _ => 0, left⟩, v⟩) m := by
  obtain rfl : f = fun _ => 0 := funext hf
  obtain ⟨v, hok, h⟩ := h
  obtain ⟨s', hs', hok', hmade⟩ := hok.init hctx
  refine ⟨within_bind.mpr ⟨Ok.within_init hctx, fun _ _ _ => trivial⟩,
    ⟨⟨.scanning 0, fun _ => 0, left⟩, (parts s').1⟩, (parts s').2, ?_, ⟨v, hok', h⟩, hmade⟩
  rw [run_bind, run_myAllocatorInit, show FreeList.myAllocatorInit ctx.poolSize ctx.mapped (w.heap m) = _ from hs']
  rfl

theorem does_destroy (h : Owns ctx (l.statics.heap m) l.worker.ptrs) (hleft : l.worker.left = 0)
    (hf : ∀ i, l.worker.ptrs i = 0) :
    Does ctx (pure ⟨l.worker.goto .finished, ThreadLocal.myAllocatorDestroy ctx.unmapped l.statics⟩) m := by
  obtain ⟨v, hok, hapart, hheld⟩ := h
  obtain ⟨hstatics, hmem⟩ := Prod.mk.inj (parts_myAllocatorDestroy ctx.unmapped l.statics m)
  have hheap : (ThreadLocal.myAllocatorDestroy ctx.unmapped l.statics).heap m =
      FreeList.myAllocatorDestroy ctx.unmapped (l.statics.heap m) := by
    rw [← hstatics]
    exact congrArg (fun m => (⟨m, _, _, _⟩ : State)) hmem.symm
  have hok' := hok.destroy ctx.unmapped
  rw [← hheap] at hok'
  refine ⟨trivial, _, m, rfl, ⟨_, hok', hapart, fun p => ?_⟩, hleft, hf, fun hunmapped => ?_⟩
  · have hnone : p ∉ v.pointers := by
      rw [hheld]
      exact not_held_of_empty hf
    refine iff_of_false ?_ (not_held_of_empty hf)
    split
    · exact List.not_mem_nil
    · exact hnone
  · show (ThreadLocal.myAllocatorDestroy ctx.unmapped l.statics).pool = 0
    rw [hunmapped, ThreadLocal.myAllocatorDestroy]
    split
    · assumption
    · rfl

theorem Ok.turn (hctx : (pool ctx).Fits) (h : Ok ctx l m) (hp : threadFn ctx l r = some p) : Does ctx p m := by
  obtain ⟨howns, hat⟩ := h
  unfold threadFn at hp
  split at hp
  · next hpc =>
    cases hp
    simp only [At, hpc] at hat
    exact does_init hctx howns hat.2 _
  · next i hpc =>
    simp only [At, hpc] at hat
    split at hp
    · next hleft =>
      cases hp
      exact does_pure howns ⟨hat, hleft, fun j hj => absurd hj (Nat.not_lt_zero _)⟩
    · next hleft =>
      split at hp
      · split at hp
        · next hi =>
          cases hp
          exact does_pure howns ⟨hat, hi, hleft⟩
        · next hi =>
          split at hp
          · cases hp
            refine does_release howns hi fun w hw => ⟨fun h0 => hat (hw ▸ h0), ?_, hleft⟩
            exact Function.update_self ..
          · cases hp
            exact does_pure howns hat
      · cases hp
        exact does_pure howns hat
  · next i hpc =>
    cases hp
    simp only [At, hpc] at hat
    exact does_request howns hat.2.1 _ hat.1
  · next i hpc =>
    simp only [At, hpc] at hat
    obtain ⟨hmade, hleft, hdrained⟩ := hat
    split at hp
    · next hlt =>
      split at hp
      · next hi =>
        cases hp
        refine does_pure howns ⟨hmade, hleft, fun j hj => ?_⟩
        rcases Nat.lt_succ_iff_lt_or_eq.mp hj with hj | hj
        · exact hdrained j hj
        · rwa [show j = ⟨i, hlt⟩ from Fin.ext hj]
      · next hi =>
        cases hp
        refine does_release howns hi fun w hw => ⟨fun h0 => hmade (hw ▸ h0), hleft, fun j hj => ?_⟩
        rcases Nat.lt_succ_iff_lt_or_eq.mp hj with hj | hj
        · exact (Function.update_of_ne (fun heq => Nat.ne_of_lt hj (congrArg Fin.val heq)) ..).trans (hdrained j hj)
        · rw [show j = ⟨i, hlt⟩ from Fin.ext hj]
          exact Function.update_self ..
    · next hge =>
      cases hp
      exact does_destroy howns hleft fun j => hdrained j (Nat.lt_of_lt_of_le j.2 (Nat.le_of_not_lt hge))
  · cases hp

end Running

/-! ### All threads -/

variable {T : Type*} {ctx : T → ThreadContext}

theorem contract (h : OwnPools fun t => pool (ctx t)) :
    Threads.Contract (fun t => threadFn (ctx t)) (fun t => (pool (ctx t)).region) fun t => Running.Ok (ctx t) :=
  ⟨h.disjoint, fun _ _ _ _ hok hm => ⟨hok.owns.congr hm, hok.place⟩, fun t _ _ _ _ hok hp => hok.turn (h.fits t) hp⟩

theorem Running.Ok.start (ctx : ThreadContext) (m : Mem) : Running.Ok ctx .start m :=
  ⟨.of_unmapped rfl fun _ => rfl, rfl, fun _ => rfl⟩

theorem Owns.slot {ctx : ThreadContext} (h : Owns ctx s f) (hi : f i ≠ 0) :
    ∃ a ∈ ctx.slots, f i = a + sizeofHeader := by
  obtain ⟨v, hok, -, hheld⟩ := h
  have hlive : f i ∈ v.pointers := (hheld _).mpr (held_self hi)
  rcases hok with ⟨base, t, hmapped, h⟩ | ⟨-, hlive', -⟩
  · obtain ⟨a, ha, heq⟩ := h.returned _ (h.live _ hlive)
    refine ⟨a, ?_, heq⟩
    rw [ThreadContext.slots, show ctx.mapped = some base from hmapped]
    exact ha
  · rw [View.pointers, hlive'] at hlive
    cases hlive

/-- When nothing is held the list is what it was after the initialisation. -/
theorem Owns.whole {ctx : ThreadContext} (h : Owns ctx s f) (hf : ∀ i, f i = 0) (hs : s.pool ≠ 0) :
    IsList s ctx.slots := by
  obtain ⟨v, hok, -, hheld⟩ := h
  rcases hok with ⟨base, t, hmapped, h⟩ | ⟨hnone, -⟩
  · have hslots : (pool ctx).slots base = ctx.slots := by
      rw [ThreadContext.slots, show ctx.mapped = some base from hmapped]
      rfl
    have hsorted : ctx.slots.Pairwise (· < ·) := by
      rw [← hslots]
      refine List.pairwise_map.mpr (List.Pairwise.imp ?_ List.pairwise_lt_range')
      intro j k hjk
      exact Nat.add_lt_add_left (Nat.mul_lt_mul_of_pos_left hjk (by decide)) base
    have hinv : Inv ctx.slots s.pool s.poolSize s v t := by
      rw [h.pool, h.poolSize, ← hslots]
      exact h
    have hpool : Pool ctx.slots s v.returned f := .inl ⟨v, t, hinv, hsorted, hheld, fun _ hp => hp⟩
    exact hpool.whole hf
  · exact absurd hnone hs

theorem Owns.payload {ctx : ThreadContext} (h : Owns ctx s f) (hi : f i ≠ 0) : f i ∈ (pool ctx).region := by
  obtain ⟨v, hok, -, hheld⟩ := h
  exact hok.payload ((hheld _).mpr (held_self hi)) (Nat.le_refl _) (Nat.lt_add_of_pos_right (by decide))

variable [DecidableEq T]

/-- What the run of all threads means to the thread `t`. -/
structure OnItsOwn (ctx : T → ThreadContext) (mem : Mem) (σ : Threads T Nat Running) (t : T) : Prop where
  /-- Its table is what it would be without the other threads and with the same random numbers. -/
  alone : ∃ m, run (Threads.alone (fun t => threadFn (ctx t)) t) (.start, mem) (σ.thread t).calls =
    some ((σ.thread t).state, m)
  /-- It holds blocks of its own pool, and no two places hold the same one. -/
  blocks : ∀ i, (σ.thread t).state.worker.ptrs i ≠ 0 →
    ∃ a ∈ (ctx t).slots, (σ.thread t).state.worker.ptrs i = a + sizeofHeader
  apart : ∀ u i j, (σ.thread t).state.worker.ptrs i = (σ.thread u).state.worker.ptrs j →
    (σ.thread t).state.worker.ptrs i ≠ 0 → t = u ∧ i = j
  /-- Before it gives its pool back all blocks are free again. -/
  whole : (σ.thread t).current = none → (σ.thread t).state.worker.pc = .draining ALLOCATION_BUFFER_SIZE →
    (ctx t).mapped ≠ none → IsList ((σ.thread t).state.statics.heap σ.mem) (ctx t).slots
  served : (σ.thread t).state.worker.pc = .finished → (σ.thread t).state.worker.left = 0
  goesOn : (σ.thread t).state.worker.pc ≠ .finished →
    ∃ e : Threads.Event T Nat, e.thread = t ∧ (Threads.step (fun t => threadFn (ctx t)) σ e).isSome

theorem Running.Ok.exists_turn {ctx : ThreadContext} (h : Running.Ok ctx l m) (hpc : l.worker.pc ≠ .finished)
    (r : Nat) : ∃ p, threadFn ctx l r = some p := by
  have hat := h.place
  cases hw : l.worker.pc with
  | finished => exact absurd hw hpc
  | releasing i => simp only [Running.At, hw] at hat
  | allocating i => simp only [Running.At, hw] at hat
  | drainingFree i => simp only [Running.At, hw] at hat
  | unstarted => exact ⟨_, by rw [threadFn, hw]⟩
  | requesting i => exact ⟨_, by rw [threadFn, hw]⟩
  | scanning i =>
    rw [threadFn, hw]
    dsimp only
    repeat' split
    all_goals exact ⟨_, rfl⟩
  | draining i =>
    rw [threadFn, hw]
    dsimp only
    repeat' split
    all_goals exact ⟨_, rfl⟩

theorem onItsOwn (h : OwnPools fun t => pool (ctx t)) (mem : Mem) (events : List (Threads.Event T Nat))
    (σ : Threads T Nat Running)
    (hr : run (Threads.step fun t => threadFn (ctx t)) (Threads.start (fun _ => .start) mem) events = some σ) (t : T) :
    OnItsOwn ctx mem σ t := by
  have hall := Threads.isolated (contract h) (fun t => .start (ctx t) mem) hr
  obtain ⟨m, ht⟩ := hall t
  refine ⟨⟨m, ht.calls⟩, fun i hi => ht.inv.owns.slot hi, fun u i j hij hi => ?_, fun hnone hpc hmapped => ?_,
    fun hpc => ?_, fun hpc => ?_⟩
  · obtain ⟨m', hu⟩ := hall u
    by_cases htu : t = u
    · subst htu
      obtain ⟨-, -, hapart, -⟩ := ht.inv.owns
      exact ⟨rfl, hapart i j hij hi⟩
    · have hmem := hu.inv.owns.payload (hij ▸ hi)
      rw [← hij] at hmem
      exact absurd hmem (Set.disjoint_left.mp (h.disjoint htu) (ht.inv.owns.payload hi))
  · have hcurrent := ht.current
    rw [hnone] at hcurrent
    have hat := ht.inv.place
    simp only [Running.At, hpc] at hat
    exact (ht.inv.owns.congr hcurrent).whole (fun j => hat.2.2 j j.2) fun h0 => hmapped (hat.1 h0)
  · have hat := ht.inv.place
    simp only [Running.At, hpc] at hat
    exact hat.1
  · cases hcurrent : (σ.thread t).current with
    | some x => exact ht.goesOn (by rw [hcurrent]; exact Option.some_ne_none x)
    | none =>
      obtain ⟨p, hp⟩ := ht.inv.exists_turn hpc 0
      refine ⟨.call t 0, rfl, ?_⟩
      simp only [Threads.step, hcurrent, hp]
      rfl

/-- One allocation for each of two threads with two slots. -/
def twoContexts (t : Fin 2) : ThreadContext := ⟨1, 2064, 256, some (65536 * (t + 1)), true⟩

/-- The first thread gets its block while the second one is still making its pool. -/
def servedMeanwhile (a b : Fin 2) : List (Threads.Event (Fin 2) Nat) :=
  [.call a 0, .access a, .call b 0, .access b, .access a, .access b, .access a, .leave a, .call a 0, .leave a,
    .call a 2, .access b, .access a, .leave a]

theorem onItsOwn_servedMeanwhile : ∃ σ,
    run (Threads.step fun t => threadFn (twoContexts t)) (Threads.start (fun _ => .start) fun _ => 0)
      (servedMeanwhile 0 1) = some σ ∧ (σ.thread 0).state.worker.ptrs ⟨0, by decide⟩ = 66576 ∧
    (σ.thread 1).state.worker.pc = .unstarted ∧ OnItsOwn twoContexts (fun _ => 0) σ 0 := by
  have heval : (run (Threads.step fun t => threadFn (twoContexts t)) (Threads.start (fun _ => .start) fun _ => 0)
      (servedMeanwhile 0 1)).map (fun σ => ((σ.thread 0).state.worker.ptrs ⟨0, by decide⟩,
        (σ.thread 1).state.worker.pc)) = some (66576, .unstarted) := by decide +kernel
  obtain ⟨σ, hr, hat⟩ := Option.map_eq_some_iff.mp heval
  obtain ⟨hptr, hpc⟩ := Prod.mk.inj hat
  exact ⟨σ, hr, hptr, hpc, onItsOwn ownPools_twoPools (fun _ => 0) (servedMeanwhile 0 1) σ hr 0⟩

end OsExercises.FreeList.Membench
