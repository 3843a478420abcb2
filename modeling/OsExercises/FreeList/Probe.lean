import OsExercises.FreeList.Locking
import OsExercises.FreeList.Runs

/-!
# The size probe of the tests

`find_maximum_block_size` of `src/exercise10/task_1/allocator_tests.c` searches for the largest
request that an allocator serves, between 0 and `SIZE_MAX`, allocating and releasing at every step.
It finds the limit of any allocator on which a release undoes the allocation before it
(`findMaximumBlockSize_spec`). The free list is such an allocator: the block taken from its front
goes back to its front. The global variant blocks if its mutex is held (`probeOk_iff`).
-/

namespace OsExercises.FreeList
open Client Transition

def SIZE_MAX : Nat := 2 ^ 64 - 1

/-! ### The search -/

/-- The variables of `find_maximum_block_size`, and the heap. -/
structure Probe (H : Type) where
  heap : H
  lowerBound : Nat
  upperBound : Nat

namespace Probe

variable {H : Type} {A : Allocator H} {h : H} {x y : Probe H} {limit : Nat}

def start (h : H) : Probe H := ⟨h, 0, SIZE_MAX⟩

def going (x : Probe H) : Bool := x.lowerBound < x.upperBound

def midpoint (x : Probe H) : Nat :=
  sizeAdd (sizeAdd x.lowerBound (sizeSub x.upperBound x.lowerBound / 2)) 1

def body (A : Allocator H) (x : Probe H) : Option (Probe H) := do
  let (h, ptr) ← A.malloc x.midpoint x.heap
  if ptr = 0 then some { x with heap := h, upperBound := sizeSub x.midpoint 1 }
  else do
    let h ← A.free ptr h
    some { x with heap := h, lowerBound := x.midpoint }

/-- One iteration, as a step that is enabled while the loop goes on. -/
def step (A : Allocator H) (x : Probe H) (_ : Unit) : Option (Probe H) :=
  if x.going then x.body A else none

/-- The midpoint is computed without wrapping around. -/
def NoWrap (x : Probe H) : Prop :=
  x.going = true → x.lowerBound + (x.upperBound - x.lowerBound) / 2 + 1 < 2 ^ 64 ∧
    x.midpoint = x.lowerBound + (x.upperBound - x.lowerBound) / 2 + 1

end Probe

/-- The heap afterwards and the size found. -/
def findMaximumBlockSize {H : Type} (A : Allocator H) (h : H) : Option (H × Nat) :=
  (whileLoop Probe.going (Probe.body A) addressSpace (Probe.start h)).map fun x =>
    (x.heap, x.lowerBound)

/-- Requests of up to `limit` bytes are served, and releasing the block restores the heap `h`; larger
ones are refused and leave it as it is. -/
structure Serves {H : Type} (A : Allocator H) (h : H) (limit : Nat) : Prop where
  served : ∀ size ≤ limit, ∃ h' p, A.malloc size h = some (h', p) ∧ p ≠ 0 ∧ A.free p h' = some h
  refused : ∀ size, limit < size → A.malloc size h = some (h, 0)

namespace Probe

variable {H : Type} {A : Allocator H} {h : H} {x y : Probe H} {limit : Nat}

/-- The limit lies between the bounds. -/
structure Inv (h : H) (limit : Nat) (x : Probe H) : Prop where
  heap : x.heap = h
  lower : x.lowerBound ≤ limit
  upper : limit ≤ x.upperBound
  max : x.upperBound < 2 ^ 64

theorem Inv.midpoint_eq (hx : Inv h limit x) (hgo : x.going = true) :
    x.midpoint = x.lowerBound + (x.upperBound - x.lowerBound) / 2 + 1 := by
  have hlt : x.lowerBound < x.upperBound := of_decide_eq_true hgo
  have hmax := hx.max
  rw [midpoint, sizeSub_of_le (Nat.le_of_lt hlt) hmax,
    sizeAdd_of_lt (x := x.lowerBound) (by omega), sizeAdd_of_lt (by omega)]

theorem Inv.noWrap (hx : Inv h limit x) : NoWrap x := by
  intro hgo
  have hlt : x.lowerBound < x.upperBound := of_decide_eq_true hgo
  have hmax := hx.max
  exact ⟨by omega, hx.midpoint_eq hgo⟩

/-- An iteration keeps the limit between the bounds and brings them closer together. -/
theorem Inv.body (hA : Serves A h limit) (hx : Inv h limit x) (hgo : x.going = true) :
    ∃ y, x.body A = some y ∧ Inv h limit y ∧
      y.upperBound - y.lowerBound < x.upperBound - x.lowerBound := by
  have hlt : x.lowerBound < x.upperBound := of_decide_eq_true hgo
  have hmid := hx.midpoint_eq hgo
  have hlower := hx.lower
  have hupper := hx.upper
  have hmax := hx.max
  by_cases hle : x.midpoint ≤ limit
  · obtain ⟨h', p, hm, hp, hf⟩ := hA.served x.midpoint hle
    refine ⟨⟨h, x.midpoint, x.upperBound⟩, ?_, ⟨rfl, hle, hupper, hmax⟩, ?_⟩
    · simp only [Probe.body, hx.heap, hm, Option.bind_eq_bind, Option.bind_some, hp, if_false, hf]
    · show x.upperBound - x.midpoint < _
      omega
  · have hm := hA.refused x.midpoint (by omega)
    have hsub : sizeSub x.midpoint 1 = x.midpoint - 1 := sizeSub_of_le (by omega) (by omega)
    refine ⟨⟨h, x.lowerBound, x.midpoint - 1⟩, ?_, ⟨rfl, hlower, ?_, ?_⟩, ?_⟩
    · simp only [Probe.body, hx.heap, hm, Option.bind_eq_bind, Option.bind_some, if_true, hsub]
    · show limit ≤ x.midpoint - 1
      omega
    · show x.midpoint - 1 < _
      omega
    · show x.midpoint - 1 - x.lowerBound < _
      omega

theorem Inv.loop (hA : Serves A h limit) {fuel : Nat} (hx : Inv h limit x)
    (hfuel : x.upperBound - x.lowerBound < fuel) :
    whileLoop going (Probe.body A) fuel x = some ⟨h, limit, limit⟩ := by
  obtain ⟨y, hy, hinv, hdone⟩ := whileLoop_total (fun x => x.upperBound - x.lowerBound)
    (fun x hx hgo => hx.body hA hgo) hx hfuel
  have hge : ¬ y.lowerBound < y.upperBound := of_decide_eq_false hdone
  have hlower := hinv.lower
  have hupper := hinv.upper
  obtain ⟨heap, lower, upper⟩ := y
  obtain rfl : heap = h := hinv.heap
  obtain rfl : lower = limit := by simp only at *; omega
  obtain rfl : upper = lower := by simp only at *; omega
  exact hy

theorem SIZE_MAX_lt : SIZE_MAX < 2 ^ 64 := by decide

theorem Inv.start (hlimit : limit < 2 ^ 64) : Inv h limit (Probe.start h) := by
  refine ⟨rfl, Nat.zero_le _, ?_, SIZE_MAX_lt⟩
  show limit ≤ SIZE_MAX
  unfold SIZE_MAX
  omega

theorem Inv.step (hA : Serves A h limit) (hx : Inv h limit x) (hs : Probe.step A x () = some y) :
    Inv h limit y := by
  unfold Probe.step at hs
  split at hs
  · next hgo =>
    obtain ⟨z, hz, hinv, -⟩ := hx.body hA hgo
    obtain rfl : z = y := Option.some.inj (hz.symm.trans hs)
    exact hinv
  · cases hs

end Probe

/-- The search ends without a wrapped midpoint, finds the limit and leaves the heap as it was. -/
structure ProbeOk {H : Type} (A : Allocator H) (h : H) (limit : Nat) : Prop where
  result : findMaximumBlockSize A h = some (h, limit)
  noWrap : ∀ steps, Throughout (Probe.step A) Probe.NoWrap (Probe.start h) steps

theorem findMaximumBlockSize_spec {H : Type} {A : Allocator H} {h : H} {limit : Nat}
    (hA : Serves A h limit) (hlimit : limit < 2 ^ 64) : ProbeOk A h limit := by
  have hstart : Probe.Inv h limit (Probe.start h) := .start hlimit
  refine ⟨?_, fun steps pre _ x hr => ?_⟩
  · have hloop : whileLoop Probe.going (Probe.body A) addressSpace (Probe.start h) =
        some ⟨h, limit, limit⟩ := hstart.loop hA Probe.SIZE_MAX_lt
    rw [findMaximumBlockSize, hloop]
    rfl
  · exact (run_inv (I := Probe.Inv h limit) (fun _ _ _ hx hs => hx.step hA hs) hstart hr).noWrap

/-! ### The free list -/

section FreeList

variable {s s' : State} {l t : List Nat} {a p size : Nat} {g g' : Global}

/-- The first block of the list goes back to where it was taken from. -/
theorem Wf.free_malloc (h : Wf s (a :: t)) :
    myFree (a + 8) { s with headerStart := next s.mem a } = some s := by
  have hpool := h.pool_pos
  have hhead : s.headerStart = a := h.chain.1.1
  have hfront : next s.mem a = 0 ∨ next s.mem a > a := by
    cases t with
    | nil => exact .inl (chain_cons.1 h.chain).2.2.1
    | cons b t =>
      have hnext : next s.mem a = b := (chain_cons.1 h.chain).2.2.1.1
      exact .inr (hnext ▸ (List.pairwise_cons.1 h.sorted).1 b List.mem_cons_self)
  have hstore : setNext s.mem a (next s.mem a) = s.mem := Mem.store_load ..
  rw [myFree, if_neg (by show s.pool ≠ 0; omega)]
  simp only [h.sizeSub_payload (h.slot a List.mem_cons_self)]
  rw [if_pos hfront, hstore, ← hhead]

theorem Wf.serves (h : Wf s l) (hhead : s.headerStart ≠ 0) (v : Variant) :
    Serves v.allocator s BLOCK_SIZE := by
  rw [v.allocator_eq]
  refine ⟨fun size hsize => ?_, fun size hsize => congrArg some (h.malloc_null (.inl hsize))⟩
  cases l with
  | nil => exact absurd h.chain.1 hhead
  | cons a t => exact ⟨_, _, congrArg some (h.malloc_cons hsize), by omega, h.free_malloc⟩

/-! ### The variant with the mutex -/

/-- The calls of the global variant; a call that finds the mutex held does not return. -/
def Global.allocator : Allocator Global where
  malloc size g := g.lock.map (Global.myMalloc size)
  free p g := g.lock.bind (Global.myFree p)
  write a x g := { g with heap := { g.heap with mem := g.heap.mem.poke a x } }

theorem Global.lock_eq_some : g.lock = some g' ↔ g.mutex = false ∧ g' = { g with mutex := true } := by
  unfold Global.lock
  cases g.mutex <;> simp [eq_comm]

/-- Whatever the calls do to the mutex, they do the same to the heap. -/
theorem Global.simulation : Simulation Global.allocator Variant.threadLocal.allocator permits
    fun g _ s => g.heap = s := by
  refine ⟨?_, ?_, fun g v _ p off x heq _ => by subst heq; rfl⟩
  · rintro g v _ size g' p rfl - hm
    obtain ⟨g₁, hlock, hg⟩ := Option.map_eq_some_iff.1 hm
    obtain ⟨-, rfl⟩ := Global.lock_eq_some.1 hlock
    have hheap := Global.myMalloc_heap size { g with mutex := true }
    rw [hg] at hheap
    exact ⟨g'.heap, congrArg some hheap.symm, rfl⟩
  · rintro g v _ p g' rfl - hf
    obtain ⟨g₁, hlock, hg⟩ := Option.bind_eq_some_iff.1 hf
    obtain ⟨-, rfl⟩ := Global.lock_eq_some.1 hlock
    have hheap := Global.myFree_heap p { g with mutex := true }
    rw [hg] at hheap
    exact ⟨g'.heap, hheap.symm, rfl⟩

theorem globalMalloc_eq (hm : myMalloc size s = (s', p)) :
    Global.allocator.malloc size ⟨s, false⟩ = some (⟨s', false⟩, p) := by
  have hheap := Global.myMalloc_heap size ⟨s, true⟩
  have hmutex : (Global.myMalloc size ⟨s, true⟩).1.mutex = false :=
    Global.body_unlocks (c := .malloc size) (p := (Global.myMalloc size ⟨s, true⟩).2) rfl (by nofun)
  rw [hm] at hheap
  show some (Global.myMalloc size ⟨s, true⟩) = _
  generalize Global.myMalloc size ⟨s, true⟩ = r at hheap hmutex ⊢
  obtain ⟨⟨heap, mutex⟩, q⟩ := r
  obtain ⟨rfl, rfl⟩ := Prod.mk.inj hheap
  obtain rfl : mutex = false := hmutex
  rfl

theorem Wf.serves_global (h : Wf s l) (hhead : s.headerStart ≠ 0) :
    Serves Global.allocator ⟨s, false⟩ BLOCK_SIZE := by
  refine ⟨fun size hsize => ?_, fun size hsize => globalMalloc_eq (h.malloc_null (.inl hsize))⟩
  cases l with
  | nil => exact absurd h.chain.1 hhead
  | cons a t =>
    refine ⟨_, _, globalMalloc_eq (h.malloc_cons hsize), by omega, ?_⟩
    have hheap := Global.myFree_heap (a + 8) ⟨{ s with headerStart := next s.mem a }, true⟩
    rw [h.free_malloc] at hheap
    obtain ⟨⟨s', mutex⟩, hf, heq⟩ := Option.map_eq_some_iff.1 hheap
    obtain rfl : s' = s := heq
    have hnot : ¬ OnChain (next s'.mem) 0 (next s'.mem a) (sizeSub (a + 8) sizeofHeader) := by
      rw [h.sizeSub_payload (h.slot a List.mem_cons_self), ← h.tail.chain.mem_iff]
      exact fun ha => Nat.lt_irrefl a ((List.pairwise_cons.1 h.sorted).1 a ha)
    obtain rfl : mutex = false := Global.myFree_unlocks hf hnot
    exact hf

theorem not_probeOk_of_mutex (hg : g.mutex = true) : ¬ ProbeOk Global.allocator g BLOCK_SIZE := by
  intro h
  have hlock : g.lock = none := if_pos hg
  have hbody : Probe.body Global.allocator (Probe.start g) = none := by
    simp [Probe.body, Probe.start, Global.allocator, hlock]
  have hgo : (Probe.start g).going = true := decide_eq_true (show 0 < SIZE_MAX by decide)
  have hresult := h.result
  rw [findMaximumBlockSize, whileLoop_undefined hgo hbody] at hresult
  cases hresult

end FreeList

section Runs

theorem wf_init {mem : Mem} {total_size base : Nat} {s₀ : State} (h64 : total_size < 2 ^ 64)
    (hm : Mapped base (trueSize total_size))
    (hinit : myAllocatorInit total_size (some base) (State.initial mem) = some s₀) :
    ∃ l₀, Wf s₀ l₀ := by
  have hlt : slotCount total_size < 2 ^ 31 := by
    by_contra hge
    rw [init_undefined (s := State.initial mem) rfl h64 hm (by omega)] at hinit
    cases hinit
  obtain ⟨s, hs, hwf, -, -⟩ := init_spec (s := State.initial mem) rfl h64 hm hlt
  obtain rfl : s = s₀ := Option.some.inj (hs.symm.trans hinit)
  exact ⟨_, hwf⟩

theorem probeOk_threadLocal (mem : Mem) (total_size base : Nat) (s₀ : State) (ops : List Op)
    (σ : Session State) (h64 : total_size < 2 ^ 64) (hm : Mapped base (trueSize total_size))
    (hinit : myAllocatorInit total_size (some base) (State.initial mem) = some s₀)
    (hr : run (step Variant.threadLocal.allocator permits) ⟨s₀, View.empty⟩ ops = some σ)
    (hfree : σ.heap.headerStart ≠ 0) : ProbeOk Variant.threadLocal.allocator σ.heap BLOCK_SIZE := by
  obtain ⟨l₀, hwf⟩ := wf_init h64 hm hinit
  obtain ⟨l, hl⟩ := run_inv_of_start .threadLocal hwf hr
  exact findMaximumBlockSize_spec (hl.wf.serves hfree .threadLocal) (by decide)

/-- In the global variant the mutex decides; it is held after a second `my_free` of a block. -/
theorem probeOk_iff (mem : Mem) (total_size base : Nat) (g₀ : Global) (ops : List Op)
    (σ : Session Global) (h64 : total_size < 2 ^ 64) (hm : Mapped base (trueSize total_size))
    (hinit : (Global.lock ⟨State.initial mem, false⟩).bind
      (Global.myAllocatorInit total_size (some base)) = some g₀)
    (hr : run (step Global.allocator permits) ⟨g₀, View.empty⟩ ops = some σ)
    (hfree : σ.heap.heap.headerStart ≠ 0) :
    ProbeOk Global.allocator σ.heap BLOCK_SIZE ↔ σ.heap.mutex = false := by
  refine ⟨fun h => ?_, fun hmutex => ?_⟩
  · by_contra hheld
    exact not_probeOk_of_mutex (by simpa using hheld) h
  · have hheap := Global.myAllocatorInit_heap total_size (some base) ⟨State.initial mem, true⟩
    have hinit' : Global.myAllocatorInit total_size (some base) ⟨State.initial mem, true⟩ = some g₀ := hinit
    rw [hinit'] at hheap
    obtain ⟨l₀, hwf⟩ := wf_init h64 hm hheap.symm
    obtain ⟨s, hr', heq⟩ := Global.simulation.run (k := g₀.heap) rfl hr
    obtain ⟨l, hl⟩ := run_inv_of_start .threadLocal hwf hr'
    obtain ⟨⟨heap, mutex⟩, v⟩ := σ
    obtain rfl : heap = s := heq
    obtain rfl : mutex = false := hmutex
    exact findMaximumBlockSize_spec (hl.wf.serves_global hfree) (by decide)

/-- A pool of three slots, of which the last two are on the list, used by one client. -/
def afterCalls (ops : List Op) : Option (Session Global) :=
  ((Global.lock ⟨State.initial fun _ => 0, false⟩).bind
    (Global.myAllocatorInit 3096 (some 65536))).bind fun g₀ =>
      run (step Global.allocator permits) ⟨g₀, View.empty⟩ ops

theorem probeOk_oneLive : ∃ g₀ σ, (Global.lock ⟨State.initial fun _ => 0, false⟩).bind
      (Global.myAllocatorInit 3096 (some 65536)) = some g₀ ∧
    run (step Global.allocator permits) ⟨g₀, View.empty⟩ [.malloc 1] = some σ ∧
    ProbeOk Global.allocator σ.heap BLOCK_SIZE := by
  have hfields : (afterCalls [.malloc 1]).map (fun σ => (σ.heap.heap.headerStart, σ.heap.mutex)) =
      some (67600, false) := by
    decide +kernel
  obtain ⟨σ, hσ, hfields⟩ := Option.map_eq_some_iff.1 hfields
  obtain ⟨g₀, hinit, hr⟩ := Option.bind_eq_some_iff.1 hσ
  obtain ⟨hhead, hmutex⟩ := Prod.mk.inj hfields
  exact ⟨g₀, σ, hinit, hr, (probeOk_iff _ 3096 65536 g₀ _ σ (by decide) (by decide) hinit hr
    (by rw [hhead]; decide)).2 hmutex⟩

/-- A block is released twice. The list has two free blocks, and the probe blocks at its first
call. -/
theorem not_probeOk_doubleFree : Mapped 65536 (trueSize 3096) ∧ ∃ g₀ σ,
    (Global.lock ⟨State.initial fun _ => 0, false⟩).bind
      (Global.myAllocatorInit 3096 (some 65536)) = some g₀ ∧
    run (step Global.allocator permits) ⟨g₀, View.empty⟩ [.malloc 1, .free 66576, .free 66576] = some σ ∧
    σ.heap.heap.headerStart ≠ 0 ∧ ¬ ProbeOk Global.allocator σ.heap BLOCK_SIZE := by
  have hfields : (afterCalls [.malloc 1, .free 66576, .free 66576]).map (fun σ =>
      (σ.heap.heap.headerStart, σ.heap.mutex)) = some (66568, true) := by
    decide +kernel
  obtain ⟨σ, hσ, hfields⟩ := Option.map_eq_some_iff.1 hfields
  obtain ⟨g₀, hinit, hr⟩ := Option.bind_eq_some_iff.1 hσ
  obtain ⟨hhead, hmutex⟩ := Prod.mk.inj hfields
  exact ⟨by decide, g₀, σ, hinit, hr, by rw [hhead]; decide, not_probeOk_of_mutex hmutex⟩

end Runs

end OsExercises.FreeList
