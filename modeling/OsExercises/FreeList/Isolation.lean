import OsExercises.FreeList.ThreadLocal
import OsExercises.FreeList.Runs
import OsExercises.Lib.Isolation
import OsExercises.Lib.Simulation

/-!
# Threads that use the thread-local allocator

There is no mutex in `src/exercise10/task_3/free_list_allocator.c`: the calls of the threads interleave access
by access. Each thread has mapped a pool of its own, and `Ok` bounds what its calls access to that pool, so
the threads do not notice each other (`independent`).
-/

namespace OsExercises.FreeList.ThreadLocal
open MemProgram Client Transition

/-- What a thread asks `my_allocator_init` for, and what `mmap` returns to it. -/
structure PoolArgs where
  size : Nat
  mapped : Option Nat

def PoolArgs.region (pool : PoolArgs) : Set Nat :=
  match pool.mapped with
  | none => ∅
  | some base => {b | base ≤ b ∧ b < base + trueSize pool.size}

/-- The pool is one that the allocator can initialise. -/
structure PoolArgs.Fits (pool : PoolArgs) : Prop where
  size : pool.size < 2 ^ 64
  mapped : ∀ base, pool.mapped = some base → Mapped base (trueSize pool.size)
  count : slotCount pool.size < 2 ^ 31

/-- The variables of a thread and what it knows as a client. -/
structure Local where
  statics : Statics
  view : View
deriving DecidableEq

inductive Call where
  | init
  | destroy (unmapped : Bool)
  | op (o : Op)
deriving DecidableEq

/-- The pool is gone, and with it all pointers. -/
def forget (v : View) : View := { v with live := [], returned := [] }

def pokeByte (a : Nat) (x : UInt8) : MemProgram Unit := .access (.poke a x) fun _ => .done ()

def callOp (l : Local) : Op → MemProgram Local
  | .malloc size => do
    let (v, p) ← myMalloc size l.statics
    pure ⟨v, l.view.record size p⟩
  | .free p => do
    let v ← myFree p l.statics
    pure ⟨v, l.view.release p⟩
  | .write p off x => do
    pokeByte (p + off) x
    pure l

def body (pool : PoolArgs) (l : Local) : Call → Option (MemProgram Local)
  | .init => some do
    let v ← myAllocatorInit pool.size pool.mapped l.statics
    pure { l with statics := v }
  | .destroy unmapped => some (pure
      ⟨myAllocatorDestroy unmapped l.statics, if unmapped then forget l.view else l.view⟩)
  | .op o => if permits l.view o then some (callOp l o) else none

/-- The same call of the functions of `Model`, by a client that is alone. -/
def exec (pool : PoolArgs) (σ : Session State) : Call → Option (Session State)
  | .init => (FreeList.myAllocatorInit pool.size pool.mapped σ.heap).map fun s => ⟨s, σ.view⟩
  | .destroy unmapped => some
      ⟨FreeList.myAllocatorDestroy unmapped σ.heap, if unmapped then forget σ.view else σ.view⟩
  | .op o => Client.step Variant.threadLocal.allocator permits σ o

def split (σ : Session State) : Local × Mem := (⟨(parts σ.heap).1, σ.view⟩, σ.heap.mem)

variable {pool : PoolArgs} {l : Local} {m m' : Mem} {c : Call} {p : MemProgram Local} {s : State} {v : View}
  {w : Statics} {a b : Nat} {t : List Nat}

theorem run_callOp (l : Local) (m : Mem) (o : Op) :
    (callOp l o).run m = (Client.exec Variant.threadLocal.allocator ⟨l.statics.heap m, l.view⟩ o).map split := by
  cases o with
  | malloc size =>
    simp only [callOp, bind_eq, run_bind, run_myMalloc (v := l.statics) (m := m) (Prod.eta _)]
    rfl
  | free p =>
    simp only [callOp, bind_eq, run_bind, run_myFree, Client.exec]
    show _ = ((FreeList.myFree p (l.statics.heap m)).map _).map split
    cases FreeList.myFree p (l.statics.heap m) <;> rfl
  | write p off x => rfl

theorem parts_myAllocatorDestroy (unmapped : Bool) (w : Statics) (m : Mem) :
    parts (FreeList.myAllocatorDestroy unmapped (w.heap m)) = (myAllocatorDestroy unmapped w, m) := by
  unfold FreeList.myAllocatorDestroy myAllocatorDestroy
  by_cases hpool : w.pool = 0
  · rw [if_pos hpool, if_pos hpool]
    rfl
  · rw [if_neg hpool, if_neg hpool]
    cases unmapped <;> rfl

theorem run_body_call (h : body pool l c = some p) (m : Mem) :
    p.run m = (exec pool ⟨l.statics.heap m, l.view⟩ c).map split := by
  cases c with
  | init =>
    cases h
    simp only [bind_eq, run_bind, run_myAllocatorInit, exec]
    cases FreeList.myAllocatorInit pool.size pool.mapped (l.statics.heap m) <;> rfl
  | destroy unmapped =>
    cases h
    obtain ⟨hstatics, hmem⟩ := Prod.mk.inj (parts_myAllocatorDestroy unmapped l.statics m)
    simp only [exec, Option.map_some, split, parts, hmem]
    exact congrArg (fun v => some (Local.mk v _, m)) hstatics.symm
  | op o =>
    simp only [body] at h
    split at h
    · next hpermits =>
      cases h
      rw [run_callOp, exec, Client.step, if_pos hpermits]
    · cases h

/-! ### What the calls of a thread access -/

/-- The bytes of the pool. -/
def poolBytes (s : State) : Set Nat := {b | s.pool ≤ b ∧ b < s.pool + s.poolSize}

theorem within_header {x : Access} (ha : s.IsSlot a) (hx : x.range = (a, 8)) : x.Within (poolBytes s) := by
  intro b h1 h2
  have hle := ha.le
  rw [HEADER_BLOCK_SIZE_eq] at hle
  rw [hx] at h1 h2
  exact ⟨by omega, by omega⟩

theorem within_myMalloc {size : Nat} (h : Wf (w.heap m) t) :
    (myMalloc size w).Within (poolBytes (w.heap m)) m := by
  unfold myMalloc
  split
  · trivial
  split
  · trivial
  split
  · trivial
  · next hstart =>
    cases t with
    | nil => exact absurd h.chain.1 hstart
    | cons a t =>
      have hhead : w.headerStart = a := h.chain.1.1
      rw [hhead]
      exact ⟨within_header (h.slot a List.mem_cons_self) rfl, trivial⟩

theorem within_loadNext (ha : s.IsSlot a) : (loadNext a).Within (poolBytes s) m :=
  ⟨within_header ha rfl, trivial⟩

theorem within_storeNext {n : Nat} (ha : s.IsSlot a) : (storeNext a n).Within (poolBytes s) m :=
  ⟨within_header ha rfl, trivial⟩

theorem within_behind (ha : s.IsSlot a) : (behind b a).Within (poolBytes s) m := by
  refine within_bind.mpr ⟨within_loadNext ha, fun next m' _ => ?_⟩
  split
  · exact within_bind.mpr ⟨within_loadNext ha, fun _ _ _ => trivial⟩
  · trivial

/-- The cursor stays on the list. -/
theorem within_findPlace (h : Wf (w.heap m) t) (ha : a ∈ t) :
    (findPlace b a).Within (poolBytes (w.heap m)) m := by
  refine within_whileLoop (I := fun c m' => m' = m ∧ c ∈ t) ?_ ?_ ⟨rfl, ha⟩
  · rintro c m' ⟨rfl, hc⟩
    exact within_behind (h.slot c hc)
  · rintro c m' m'' ⟨rfl, hc⟩ hgoing
    rw [run_behind] at hgoing
    obtain ⟨hnext, rfl⟩ := Prod.mk.inj (Option.some.inj hgoing)
    refine ⟨within_loadNext (h.slot c hc), fun c' m' hload => ?_⟩
    cases hload
    exact ⟨rfl, h.chain.mem_iff.mpr ((h.chain.mem_iff.mp hc).advance (of_decide_eq_true hnext).1)⟩

theorem within_myFree (h : Wf (w.heap m) t) (hb : (w.heap m).IsSlot b) :
    (myFree (b + 8) w).Within (poolBytes (w.heap m)) m := by
  unfold myFree
  split
  · trivial
  rw [h.sizeSub_payload hb]
  by_cases hfront : w.headerStart = 0 ∨ w.headerStart > b
  · simp only [if_pos hfront]
    exact within_bind.mpr ⟨within_storeNext hb, fun _ _ _ => trivial⟩
  simp only [if_neg hfront]
  obtain ⟨hne, hle⟩ : w.headerStart ≠ 0 ∧ w.headerStart ≤ b := by omega
  have hhead : w.headerStart ∈ t := by
    cases t with
    | nil => exact absurd h.chain.1 hne
    | cons c t => exact h.chain.1.1 ▸ List.mem_cons_self
  refine within_bind.mpr ⟨within_findPlace h hhead, fun d m' hrun => ?_⟩
  obtain ⟨l₁, d', l₂, rfl, -, -, hfind⟩ := h.findPlace (b := b) hle hne
  rw [run_findPlace, hfind] at hrun
  cases hrun
  have hd : (w.heap m).IsSlot d := h.slot d (by simp)
  split
  · trivial
  · refine within_bind.mpr ⟨within_loadNext hd, fun _ _ _ => ?_⟩
    refine within_bind.mpr ⟨within_storeNext hb, fun _ _ _ => ?_⟩
    exact within_bind.mpr ⟨within_storeNext hd, fun _ _ _ => trivial⟩

theorem within_body {q : Populating} (hq : ∀ a, q.cursor = .block a → s.IsSlot a) :
    q.body.Within (poolBytes s) m := by
  refine within_bind.mpr ⟨within_ofOption _, fun next m _ => within_bind.mpr ⟨?_, fun v m _ => ?_⟩⟩
  · unfold Populating.storeNext
    split
    · trivial
    · next a ha => exact within_bind.mpr ⟨within_storeNext (hq a ha), fun _ _ _ => trivial⟩
  refine within_bind.mpr ⟨?_, fun cursor m _ => ?_⟩
  · unfold Populating.loadNext
    split
    · trivial
    · next a ha => exact within_loadNext (hq a ha)
  · exact within_bind.mpr ⟨within_ofOption _, fun _ _ _ => trivial⟩

/-- The loop is at its end, or at slot `j` with `r` slots left. -/
def Populates (base count : Nat) (P : Populate) : Prop :=
  P.cursor = .block 0 ∨ ∃ heap c j r, P = ⟨heap, c, (j : Nat), HEADER_BLOCK_SIZE * r⟩ ∧ c.At heap j ∧ 1 ≤ r ∧
    j + r = count ∧ heap.pool = base

namespace Populates

variable {P P' : Populate} {base count : Nat}

theorem slot (h : Populates base count P) (hgo : P.going = true) (hs : s.pool = base)
    (hsize : s.poolSize = HEADER_BLOCK_SIZE * count) (ha : P.cursor = .block a) : s.IsSlot a := by
  rcases h with hend | ⟨heap, c, j, r, rfl, hat, hr, hjr, hpool⟩
  · exact absurd hend (of_decide_eq_true hgo)
  · obtain rfl : c = .block a := ha
    refine ⟨j, ?_, ?_⟩
    · rw [hat.2, State.slot, hpool, hs]
    · rw [hsize]
      exact Nat.mul_le_mul_left _ (by omega)

theorem body (h : Populates base count P) (hgo : P.going = true) (hbase : 0 < base)
    (hfit : base + HEADER_BLOCK_SIZE * count ≤ 2 ^ 64) (hint : count < 2 ^ 31) (hb : P.body = some P') :
    Populates base count P' := by
  rcases h with hend | ⟨heap, c, j, r, rfl, hat, hr, hjr, rfl⟩
  · exact absurd hend (of_decide_eq_true hgo)
  by_cases hmore : 1 < r
  · have hslot : heap.slot (j + r) ≤ 2 ^ 64 := by
      rw [State.slot, hjr]
      exact hfit
    rw [Populate.body_link hbase hmore (by unfold INT_MAX; omega) hslot] at hb
    cases hb
    refine .inr ⟨_, _, j + 1, r - 1, rfl, ⟨Nat.succ_pos j, ?_⟩, by omega, by omega, ?_⟩
    · rw [State.setNextAt_slot]
    · rw [State.setNextAt_pool]
  · obtain rfl : r = 1 := by omega
    rw [Populate.body_last (by unfold INT_MAX; omega)] at hb
    cases hb
    exact .inl rfl

end Populates

theorem within_populate {base count : Nat} (hbase : 0 < base) (hfit : base + HEADER_BLOCK_SIZE * count ≤ 2 ^ 64)
    (hcount : 1 ≤ count) (hint : count < 2 ^ 31) (hs : s.pool = base)
    (hsize : s.poolSize = HEADER_BLOCK_SIZE * count) :
    (populate (HEADER_BLOCK_SIZE * count) base w).Within (poolBytes s) m := by
  refine within_bind.mpr ⟨⟨?_, trivial⟩, fun _ m' hpages => ?_⟩
  · intro b h1 h2
    simp only [Access.range] at h1 h2
    exact ⟨by omega, by omega⟩
  refine within_bind.mpr ⟨?_, fun _ _ _ => trivial⟩
  refine within_whileLoop (I := fun q m => ∃ P, populating P = (q, m) ∧ Populates base count P) ?_ ?_ ?_
  · exact fun _ _ _ => trivial
  · rintro q m₁ m₂ ⟨P, hP, h⟩ hgoing
    obtain ⟨hgo, rfl⟩ := Prod.mk.inj (Option.some.inj hgoing)
    obtain ⟨rfl, rfl⟩ := Prod.mk.inj hP
    refine ⟨within_body fun a ha => h.slot hgo hs hsize ha, fun q' m'' hrun => ?_⟩
    obtain ⟨P', hP', hnext⟩ := Option.map_eq_some_iff.mp ((run_body P).symm.trans hrun)
    exact ⟨P', hnext, h.body hgo hbase hfit hint hP'⟩
  · cases hpages
    exact ⟨⟨(w.heap m).map (HEADER_BLOCK_SIZE * count) base, .headerStart, 0, HEADER_BLOCK_SIZE * count⟩, rfl,
      .inr ⟨_, _, 0, count, rfl, rfl, hcount, Nat.zero_add _, rfl⟩⟩

/-! ### The contract -/

/-- The headers on the list after the initialisation. -/
def PoolArgs.slots (pool : PoolArgs) (base : Nat) : List Nat :=
  (List.range' 1 (slotCount pool.size - 1)).map fun k => base + HEADER_BLOCK_SIZE * k

/-- Between two calls: the thread has its pool, or none and no pointers either. -/
def Ok (pool : PoolArgs) (s : State) (v : View) : Prop :=
  (∃ base t, pool.mapped = some base ∧ Inv (pool.slots base) base (trueSize pool.size) s v t) ∨
  s.pool = 0 ∧ v.live = [] ∧ v.returned = []

theorem inv_of_fresh (h : Wf s t) (hlive : v.live = []) (hreturned : v.returned = []) :
    Inv t s.pool s.poolSize s v t := by
  have hpointers : v.pointers = [] := by rw [View.pointers, hlive, List.map_nil]
  refine ⟨h, rfl, rfl, h.slot, fun a => ?_, ?_, ?_, ?_⟩
  · rw [hpointers]
    exact (and_iff_left List.not_mem_nil).symm
  · rw [hreturned]
    exact fun _ hp => absurd hp List.not_mem_nil
  · rw [hpointers]
    exact fun _ hp => absurd hp List.not_mem_nil
  · rw [hpointers]
    exact List.nodup_nil

theorem wf_congr (h : Wf (w.heap m) t) (hm : Set.EqOn m m' (poolBytes (w.heap m))) : Wf (w.heap m') t := by
  refine ⟨h.pool_pos, h.fits, h.chain.congr fun a ha => ?_, h.sorted, h.slot⟩
  exact Access.result_congr (x := .load a 8) (within_header (h.slot a ha) rfl) hm

namespace Ok

theorem region {base : Nat} (hmapped : pool.mapped = some base) (hs : s.pool = base)
    (hsize : s.poolSize = trueSize pool.size) : poolBytes s = pool.region := by
  rw [PoolArgs.region, hmapped, poolBytes, hs, hsize]

theorem congr (h : Ok pool (w.heap m) v) (hm : Set.EqOn m m' pool.region) : Ok pool (w.heap m') v := by
  rcases h with ⟨base, t, hmapped, h⟩ | h
  · rw [← region hmapped h.pool h.poolSize] at hm
    exact .inl ⟨base, t, hmapped, wf_congr h.wf hm, h.pool, h.poolSize, h.initial, h.mem_iff, h.returned, h.live,
      h.nodup⟩
  · exact .inr h

theorem init (hpool : pool.Fits) (h : Ok pool s v) :
    ∃ s', FreeList.myAllocatorInit pool.size pool.mapped s = some s' ∧ Ok pool s' v ∧
      (s'.pool = 0 → pool.mapped = none) := by
  rcases h with ⟨base, t, hmapped, h⟩ | ⟨hnone, hlive, hreturned⟩
  · have hne : s.pool ≠ 0 := Nat.ne_of_gt h.wf.pool_pos
    exact ⟨s, if_pos hne, .inl ⟨base, t, hmapped, h⟩, fun h0 => absurd h0 hne⟩
  · cases hmapped : pool.mapped with
    | none => exact ⟨s, if_neg (not_not.mpr hnone), .inr ⟨hnone, hlive, hreturned⟩, fun _ => rfl⟩
    | some base =>
      obtain ⟨s', hs', hwf, hbase, hsize⟩ :=
        init_spec hnone hpool.size (hpool.mapped base hmapped) hpool.count
      refine ⟨s', hs', .inl ⟨base, pool.slots base, hmapped, ?_⟩, fun h0 => absurd h0 (Nat.ne_of_gt hwf.pool_pos)⟩
      have hinv := inv_of_fresh hwf hlive hreturned
      rw [← trueSize_eq hpool.size] at hsize
      rw [hsize, hbase] at hinv
      have hslots : s'.slot = fun k => base + HEADER_BLOCK_SIZE * k := by
        funext k
        rw [State.slot, hbase]
      rwa [hslots] at hinv

theorem destroy (unmapped : Bool) (h : Ok pool s v) :
    Ok pool (FreeList.myAllocatorDestroy unmapped s) (if unmapped then forget v else v) := by
  cases unmapped with
  | false =>
    have hsame : FreeList.myAllocatorDestroy false s = s := by
      unfold FreeList.myAllocatorDestroy
      split <;> rfl
    rwa [hsame]
  | true =>
    refine .inr ⟨?_, rfl, rfl⟩
    unfold FreeList.myAllocatorDestroy
    split
    · assumption
    · rfl

theorem op {o : Op} (hpermits : permits v o = true) (h : Ok pool s v) :
    ∃ σ, Client.step Variant.threadLocal.allocator permits ⟨s, v⟩ o = some σ ∧ Ok pool σ.heap σ.view := by
  rcases h with ⟨base, t, hmapped, h⟩ | ⟨hnone, hlive, hreturned⟩
  · obtain ⟨σ, hσ⟩ := (h.listOk .threadLocal).progress o hpermits
    obtain ⟨-, -, t', h', -⟩ := (simulation .threadLocal).step (k := t.toFinset) ⟨t, h, rfl⟩ hσ
    exact ⟨σ, hσ, .inl ⟨base, t', hmapped, h'⟩⟩
  · cases o with
    | malloc size =>
      have hnull : FreeList.myMalloc size s = (s, 0) := if_pos hnone
      exact ⟨⟨s, v.record size 0⟩, step_malloc_eq_some.mpr ⟨hpermits, s, 0, congrArg some hnull, rfl⟩,
        .inr ⟨hnone, hlive, hreturned⟩⟩
    | free p => simp [permits, hreturned] at hpermits
    | write p off x => simp [permits, View.pointers, hlive] at hpermits

theorem live {q : Nat} (h : Ok pool s v) (hq : q ∈ v.pointers) : q ∈ v.returned := by
  rcases h with ⟨base, t, -, h⟩ | ⟨-, hlive, -⟩
  · exact h.live q hq
  · rw [View.pointers, hlive] at hq
    cases hq

theorem nodup (h : Ok pool s v) : v.pointers.Nodup := by
  rcases h with ⟨base, t, -, h⟩ | ⟨-, hlive, -⟩
  · exact h.nodup
  · rw [View.pointers, hlive]
    exact List.nodup_nil

theorem exec (hpool : pool.Fits) (h : Ok pool (l.statics.heap m) l.view) (hp : body pool l c = some p) :
    ∃ σ, ThreadLocal.exec pool ⟨l.statics.heap m, l.view⟩ c = some σ ∧ Ok pool σ.heap σ.view := by
  cases c with
  | init =>
    obtain ⟨s, hs, h', -⟩ := h.init hpool
    exact ⟨⟨s, l.view⟩, by rw [ThreadLocal.exec, hs]; rfl, h'⟩
  | destroy unmapped => exact ⟨_, rfl, h.destroy unmapped⟩
  | op o =>
    simp only [body, Option.ite_none_right_eq_some] at hp
    exact h.op hp.1

theorem within_init (hpool : pool.Fits) :
    (myAllocatorInit pool.size pool.mapped w).Within pool.region m := by
  unfold myAllocatorInit
  split
  · trivial
  · split
    · trivial
    · next base hmapped =>
      have hm := hpool.mapped base hmapped
      have hfits := hm.fits
      rw [trueSize_eq hpool.size] at hfits
      have hregion := region (s := ⟨m, base, trueSize pool.size, 0⟩) hmapped rfl rfl
      rw [← hregion, trueSize_eq hpool.size]
      exact within_populate hm.base_pos hfits (slotCount_pos hpool.size hm) hpool.count rfl rfl

theorem within_callOp {o : Op} (hpermits : permits l.view o = true) (h : Ok pool (l.statics.heap m) l.view) :
    (callOp l o).Within pool.region m := by
  rcases h with ⟨base, t, hmapped, h⟩ | ⟨hnone, hlive, hreturned⟩
  · rw [← region hmapped h.pool h.poolSize]
    cases o with
    | malloc size => exact within_bind.mpr ⟨within_myMalloc h.wf, fun _ _ _ => trivial⟩
    | free p =>
      obtain ⟨b, hb, rfl⟩ := h.returned p (by simpa [permits] using hpermits)
      exact within_bind.mpr ⟨within_myFree h.wf (h.initial b hb), fun _ _ _ => trivial⟩
    | write p off x =>
      obtain ⟨hp, hoff⟩ : p ∈ l.view.pointers ∧ off < BLOCK_SIZE := by simpa [permits] using hpermits
      obtain ⟨b, hb, rfl⟩ := h.returned p (h.live p hp)
      refine within_bind.mpr ⟨⟨?_, trivial⟩, fun _ _ _ => trivial⟩
      intro a h1 h2
      have hle := (h.initial b hb).le
      rw [HEADER_BLOCK_SIZE_eq] at hle
      rw [BLOCK_SIZE_eq] at hoff
      simp only [Access.range] at h1 h2
      exact ⟨by omega, by omega⟩
  · cases o with
    | malloc size =>
      refine within_bind.mpr ⟨?_, fun _ _ _ => trivial⟩
      rw [myMalloc, if_pos hnone]
      trivial
    | free p => simp [permits, hreturned] at hpermits
    | write p off x => simp [permits, View.pointers, hlive] at hpermits

theorem within (hpool : pool.Fits) (h : Ok pool (l.statics.heap m) l.view) (hp : body pool l c = some p) :
    p.Within pool.region m := by
  cases c with
  | init =>
    cases hp
    exact within_bind.mpr ⟨within_init hpool, fun _ _ _ => trivial⟩
  | destroy unmapped =>
    cases hp
    trivial
  | op o =>
    simp only [body, Option.ite_none_right_eq_some, Option.some.injEq] at hp
    obtain ⟨hpermits, rfl⟩ := hp
    exact h.within_callOp hpermits

end Ok

variable {T : Type*} {pools : T → PoolArgs}

/-- The kernel gives each thread pages of its own. -/
structure OwnPools (pools : T → PoolArgs) : Prop where
  fits : ∀ t, (pools t).Fits
  disjoint : Pairwise fun t u => Disjoint (pools t).region (pools u).region

theorem contract (h : OwnPools pools) : Threads.Contract (fun t => body (pools t)) (fun t => (pools t).region)
    fun t l m => Ok (pools t) (l.statics.heap m) l.view := by
  refine ⟨h.disjoint, fun t l m m' hok hm => hok.congr hm, fun t l m c p hok hp => ⟨hok.within (h.fits t) hp, ?_⟩⟩
  obtain ⟨σ, hσ, hok'⟩ := hok.exec (h.fits t) hp
  refine ⟨(split σ).1, (split σ).2, ?_, hok'⟩
  rw [run_body_call hp, hσ]
  rfl

theorem alone_split (t : T) (σ : Session State) (c : Call) :
    Threads.alone (fun t => body (pools t)) t (split σ) c = (exec (pools t) σ c).map split := by
  show (body (pools t) (split σ).1 c).bind (fun p => p.run σ.heap.mem) = _
  cases hp : body (pools t) (split σ).1 c with
  | some p => exact run_body_call hp σ.heap.mem
  | none =>
    cases c with
    | init => cases hp
    | destroy unmapped => cases hp
    | op o =>
      simp only [body, ite_eq_right_iff, reduceCtorEq, imp_false] at hp
      have hdenied : Client.step Variant.threadLocal.allocator permits σ o = none := if_neg hp
      rw [exec, hdenied]
      rfl

/-- A run of whole calls, on a state and with the memory apart. -/
theorem run_alone (t : T) {σ : Session State} {calls : List Call} {x : Local × Mem}
    (hr : run (Threads.alone (fun t => body (pools t)) t) (split σ) calls = some x) :
    ∃ τ, run (exec (pools t)) σ calls = some τ ∧ split τ = x := by
  have hrel : Option.Rel (fun σ x => split σ = x) (run (exec (pools t)) σ calls)
      (run (Threads.alone (fun t => body (pools t)) t) (split σ) calls) := by
    refine run_rel_of_meets (C := fun _ _ => True) (fun σ x c hx _ => ?_) rfl (fun _ _ _ _ _ => trivial)
    subst hx
    rw [alone_split]
    cases exec (pools t) σ c with
    | none => exact .none
    | some τ => exact .some rfl
  rw [hr] at hrel
  cases h : run (exec (pools t)) σ calls with
  | none =>
    rw [h] at hrel
    cases hrel
  | some τ =>
    rw [h] at hrel
    cases hrel with
    | some hτ => exact ⟨τ, rfl, hτ⟩

theorem Ok.payload {q : Nat} (h : Ok pool s v) (hq : q ∈ v.pointers) (h1 : q ≤ b) (h2 : b < q + BLOCK_SIZE) :
    b ∈ pool.region := by
  rcases h with ⟨base, t, hmapped, h⟩ | ⟨-, hlive, -⟩
  · rw [← region hmapped h.pool h.poolSize]
    obtain ⟨hle, hlt⟩ := h.isolated.inside q hq
    exact ⟨by omega, by omega⟩
  · rw [View.pointers, hlive] at hq
    cases hq

variable [DecidableEq T]

/-- What the run of all threads means to the thread `t`. -/
structure Independent (pools : T → PoolArgs) (mem : Mem) (σ : Threads T Call Local) (t : T) : Prop where
  /-- It is where its calls would have brought it without the other threads, and so are the bytes of its
  pool. -/
  alone : ∃ τ, run (exec (pools t)) ⟨State.initial mem, View.empty⟩ (σ.thread t).calls = some τ ∧
    (split τ).1 = (σ.thread t).state ∧
    ((σ.thread t).current = none → Set.EqOn τ.heap.mem σ.mem (pools t).region)
  /-- It need not wait for the others. -/
  goesOn : (σ.thread t).current ≠ none →
    ∃ e : Threads.Event T Call, e.thread = t ∧ (Threads.step (fun t => body (pools t)) σ e).isSome
  /-- What it has been handed out is its own. -/
  apart : ∀ u ≠ t, ∀ p ∈ (σ.thread t).state.view.pointers, ∀ q ∈ (σ.thread u).state.view.pointers,
    p + BLOCK_SIZE ≤ q ∨ q + BLOCK_SIZE ≤ p

theorem independent (h : OwnPools pools) (mem : Mem) (events : List (Threads.Event T Call))
    (σ : Threads T Call Local)
    (hr : run (Threads.step fun t => body (pools t)) (Threads.start (fun _ => ⟨⟨0, 0, 0⟩, View.empty⟩) mem)
      events = some σ) (t : T) : Independent pools mem σ t := by
  have hall := Threads.isolated (contract h) (fun _ => .inr ⟨rfl, rfl, rfl⟩) hr
  obtain ⟨m, ht⟩ := hall t
  refine ⟨?_, ht.goesOn, fun u hu p hp q hq => ?_⟩
  · obtain ⟨τ, hτ, hsplit⟩ := run_alone (σ := ⟨State.initial mem, View.empty⟩) t ht.calls
    obtain ⟨hstate, hmem⟩ := Prod.mk.inj hsplit
    refine ⟨τ, hτ, hstate, fun hnone => ?_⟩
    have hcurrent := ht.current
    rw [hnone] at hcurrent
    exact hmem ▸ hcurrent
  · obtain ⟨m', hu'⟩ := hall u
    have hdisjoint := Set.disjoint_left.mp (h.disjoint hu)
    by_contra hoverlap
    -- the higher of the two pointers would be in both pools
    rcases Nat.le_total p q with hle | hle
    · exact hdisjoint (hu'.inv.payload hq (Nat.le_refl q) (Nat.lt_add_of_pos_right (by decide)))
        (ht.inv.payload hp hle (by omega))
    · exact hdisjoint (hu'.inv.payload hq hle (by omega))
        (ht.inv.payload hp (Nat.le_refl p) (Nat.lt_add_of_pos_right (by decide)))

/-- Two slots for each of two threads. -/
def twoPools (t : Fin 2) : PoolArgs := ⟨2064, some (65536 * (t + 1))⟩

theorem ownPools_twoPools : OwnPools twoPools := by
  have hsize (t : Fin 2) : trueSize (twoPools t).size = 2064 := show trueSize 2064 = 2064 by decide
  refine ⟨fun t => ⟨show 2064 < 2 ^ 64 by decide, ?_, show slotCount 2064 < 2 ^ 31 by decide⟩, ?_⟩
  · rintro base heq
    cases heq
    have ht := t.isLt
    refine ⟨by omega, ?_, ?_⟩ <;> rw [hsize]
    · decide
    · rw [addressSpace]
      omega
  · refine fun t u htu => Set.disjoint_left.mpr ?_
    rintro b ⟨ht, ht'⟩ ⟨hu, hu'⟩
    rw [hsize] at ht' hu'
    have hne : (t : Nat) ≠ u := fun h => htu (Fin.ext h)
    omega

/-- The first thread allocates while the second one is still making its pool. -/
def allocateMeanwhile (a b : Fin 2) : List (Threads.Event (Fin 2) Call) :=
  [.call a .init, .access a, .call b .init, .access b, .access b, .access a, .access a, .leave a,
    .call a (.op (.malloc 5)), .access b, .leave b, .call b (.op (.malloc 7)), .access b, .access a, .leave b,
    .leave a, .call b (.op (.write 132112 0 9)), .call a (.op (.free 66576)), .access b, .access a, .leave a]

theorem independent_allocateMeanwhile : ∃ σ,
    run (Threads.step fun t => body (twoPools t)) (Threads.start (fun _ => ⟨⟨0, 0, 0⟩, View.empty⟩) fun _ => 0)
      (allocateMeanwhile 0 1) = some σ ∧ (σ.thread 0).state.view.trace = [66576] ∧
    (σ.thread 1).state.view.pointers = [132112] ∧ Independent twoPools (fun _ => 0) σ 1 := by
  have heval : (run (Threads.step fun t => body (twoPools t))
      (Threads.start (fun _ => ⟨⟨0, 0, 0⟩, View.empty⟩) fun _ => 0) (allocateMeanwhile 0 1)).map
      (fun σ => ((σ.thread 0).state.view.trace, (σ.thread 1).state.view.pointers)) =
      some ([66576], [132112]) := by decide +kernel
  obtain ⟨σ, hr, hviews⟩ := Option.map_eq_some_iff.mp heval
  obtain ⟨h0, h1⟩ := Prod.mk.inj hviews
  exact ⟨σ, hr, h0, h1, independent ownPools_twoPools (fun _ => 0) (allocateMeanwhile 0 1) σ hr 1⟩

end OsExercises.FreeList.ThreadLocal
