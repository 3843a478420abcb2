import OsExercises.FreeList.SlotSet

/-!
# Runs of the free-list allocator

What holds after any sequence of calls on a mapped pool: the list is the set of free slots
(`refinesFreeSet_iff`), one slot fewer than fit is ever handed out (`not_fullCapacity`), and callers
cannot reach the headers through their payloads (`payload_isolation`). A run is a list of
operations that keep the contract; `ListOk.progress` says that no permitted call diverges.
-/

namespace OsExercises.FreeList
open Client Transition

variable {l₀ l : List Nat} {base psize total_size : Nat} {s s₀ : State} {w : View}

def IsList (s : State) (l : List Nat) : Prop := Chain (next s.mem) 0 s.headerStart l

/-- What a state of a run promises: `l` is its list, `l₀` the list after initialisation. -/
structure ListOk (v : Variant) (l₀ : List Nat) (s : State) (w : View) (l : List Nat) : Prop where
  isList : IsList s l
  sorted : l.Pairwise (· < ·)
  slot : ∀ a ∈ l, ∃ k, a = s.pool + HEADER_BLOCK_SIZE * k
  mem_iff : ∀ a, a ∈ l ↔ a ∈ l₀ ∧ a + 8 ∉ w.pointers
  malloc : ∀ size ≤ BLOCK_SIZE, ∀ a t, l = a :: t →
    ∃ s', v.allocator.malloc size s = some (s', a + 8) ∧ IsList s' t
  freeLive : ∀ p ∈ w.pointers, p - 8 ∉ l ∧ ∃ s' l', v.allocator.free p s = some s' ∧ IsList s' l' ∧
    l'.Pairwise (· < ·) ∧ ∀ a, a ∈ l' ↔ a = p - 8 ∨ a ∈ l
  freeFree : ∀ p ∈ w.returned, p ∉ w.pointers →
    ∃ s', v.allocator.free p s = some s' ∧ IsList s' l
  progress : ∀ op, permits w op = true → ∃ σ, step v.allocator permits ⟨s, w⟩ op = some σ

/-- The pool is initialised and every state of every run on it is `ListOk`. -/
def RefinesFreeSet (v : Variant) (mem : Mem) (total_size base : Nat) : Prop :=
  ∃ s₀ l₀, v.myAllocatorInit total_size (some base) (State.initial mem) = some s₀ ∧ IsList s₀ l₀ ∧
    ∀ ops σ, run (step v.allocator permits) ⟨s₀, View.empty⟩ ops = some σ →
      ∃ l, ListOk v l₀ σ.heap σ.view l

namespace Inv

theorem listOk (h : Inv l₀ base psize s w l) (v : Variant) : ListOk v l₀ s w l := by
  have hslot : ∀ a ∈ l, ∃ k, a = s.pool + HEADER_BLOCK_SIZE * k := fun a ha =>
    let ⟨k, hk, _⟩ := h.wf.slot a ha; ⟨k, hk⟩
  refine ⟨h.wf.chain, h.wf.sorted, hslot, h.mem_iff, ?_, ?_, ?_, ?_⟩ <;> rw [v.allocator_eq]
  · rintro size hsize a t rfl
    exact ⟨_, congrArg some (h.wf.malloc_cons hsize), h.wf.tail.chain⟩
  · intro p hp
    obtain ⟨b, hb, rfl⟩ := h.returned p (h.live p hp)
    obtain ⟨s', l', hs', h', hl'⟩ := h.free (h.live _ hp)
    refine ⟨?_, s', l', hs', h'.wf.chain, h'.wf.sorted, hl'⟩
    rw [Nat.add_sub_cancel]
    exact h.notMem_of_live hp
  · intro p hp hn
    obtain ⟨b, hb, rfl⟩ := h.returned p hp
    exact ⟨s, h.wf.free_again ((h.mem_iff b).2 ⟨hb, hn⟩), h.wf.chain⟩
  · intro op hop
    cases op with
    | malloc size => exact ⟨_, step_malloc_eq_some.2 ⟨hop, _, _, rfl, rfl⟩⟩
    | free p =>
      obtain ⟨s', l', hs', -, -⟩ := h.free (p := p) (by simpa [permits] using hop)
      exact ⟨_, step_free_eq_some.2 ⟨hop, s', hs', rfl⟩⟩
    | write p off x => exact ⟨_, step_write_eq_some.2 ⟨hop, rfl⟩⟩

end Inv

theorem run_inv_of_start (v : Variant) (h : Wf s₀ l₀) {ops : List Op} {σ : Session State}
    (hr : run (step v.allocator permits) ⟨s₀, View.empty⟩ ops = some σ) :
    ∃ l, Inv l₀ s₀.pool s₀.poolSize σ.heap σ.view l := by
  obtain ⟨-, -, l, hl, -⟩ := (simulation v).run (k := l₀.toFinset) ⟨l₀, Inv.start h, rfl⟩ hr
  exact ⟨l, hl⟩

/-- The refinement holds exactly for the pools whose slots an `int` can count. -/
theorem refinesFreeSet_iff (v : Variant) (mem : Mem) (total_size base : Nat)
    (h64 : total_size < 2 ^ 64) (hm : Mapped base (trueSize total_size)) :
    RefinesFreeSet v mem total_size base ↔ slotCount total_size < 2 ^ 31 := by
  unfold RefinesFreeSet
  simp only [v.myAllocatorInit_eq]
  constructor
  · rintro ⟨s₀, l₀, hinit, -⟩
    by_contra hge
    rw [init_undefined (s := State.initial mem) rfl h64 hm (by omega)] at hinit
    cases hinit
  · intro hlt
    obtain ⟨s₀, hinit, hwf, -, -⟩ := init_spec (s := State.initial mem) rfl h64 hm hlt
    refine ⟨s₀, _, hinit, hwf.chain, fun ops σ hr => ?_⟩
    obtain ⟨l, hl⟩ := run_inv_of_start v hwf hr
    exact ⟨l, hl.listOk v⟩

theorem refinesFreeSet_fourSlots : RefinesFreeSet .global (fun _ => 0) 4128 65536 :=
  (refinesFreeSet_iff .global (fun _ => 0) 4128 65536 (by decide) (by decide)).2
    (by decide)

/-- A pool of `2 ^ 31 + 1` slots: `block_count + 1` overflows while the list is built. -/
theorem not_refinesFreeSet_hugePool : Mapped 65536 (trueSize (1032 * (2 ^ 31 + 1))) ∧
    ¬ RefinesFreeSet .global (fun _ => 0) (1032 * (2 ^ 31 + 1)) 65536 := by
  have hm : Mapped 65536 (trueSize (1032 * (2 ^ 31 + 1))) := by decide
  refine ⟨hm, ?_⟩
  rintro ⟨s₀, l₀, hinit, -⟩
  rw [Variant.myAllocatorInit_eq,
    init_undefined (s := State.initial fun _ => 0) rfl (by decide) hm (by decide)] at hinit
  cases hinit

/-! ### Capacity -/

/-- Consecutive calls of `malloc`, and their answers. -/
def mallocs {H : Type} (A : Allocator H) : List Nat → H → Option (H × List Nat)
  | [], h => some (h, [])
  | size :: sizes, h => (A.malloc size h).bind fun r =>
      (mallocs A sizes r.1).map fun r' => (r'.1, r.2 :: r'.2)

/-- The requests `sizes` right after the initialisation are all served, with distinct blocks, and
the next one is refused. -/
def FullCapacity (v : Variant) (mem : Mem) (total_size base : Nat) (sizes : List Nat) : Prop :=
  ∃ s₀ s' ps, v.myAllocatorInit total_size (some base) (State.initial mem) = some s₀ ∧
    mallocs v.allocator sizes s₀ = some (s', ps) ∧ 0 ∉ ps ∧ ps.Nodup ∧
    ∀ size ≤ BLOCK_SIZE, ∃ s'', v.allocator.malloc size s' = some (s'', 0)

theorem zero_mem_mallocs (v : Variant) {sizes : List Nat} (h : Wf s l) {s' : State} {ps : List Nat}
    (hsz : ∀ size ∈ sizes, size ≤ BLOCK_SIZE) (hlen : l.length < sizes.length)
    (hm : mallocs v.allocator sizes s = some (s', ps)) : 0 ∈ ps := by
  rw [v.allocator_eq] at hm
  induction sizes generalizing s l ps with
  | nil => simp at hlen
  | cons size sizes ih =>
    obtain ⟨r, hr, hm⟩ := Option.bind_eq_some_iff.1 hm
    obtain ⟨r', hm', heq⟩ := Option.map_eq_some_iff.1 hm
    cases heq
    have hr : myMalloc size s = r := Option.some.inj hr
    cases l with
    | nil =>
      rw [h.malloc_null (.inr rfl)] at hr
      subst hr
      exact List.mem_cons_self
    | cons a t =>
      rw [h.malloc_cons (hsz size List.mem_cons_self)] at hr
      subst hr
      exact List.mem_cons_of_mem _ (ih h.tail (fun x hx => hsz x (List.mem_cons_of_mem _ hx))
        (by simpa using hlen) hm')

theorem not_fullCapacity (v : Variant) (mem : Mem) (total_size base : Nat) (sizes : List Nat)
    (h64 : total_size < 2 ^ 64) (hm : Mapped base (trueSize total_size))
    (hlen : sizes.length = total_size / HEADER_BLOCK_SIZE)
    (hsz : ∀ size ∈ sizes, size ≤ BLOCK_SIZE) : ¬ FullCapacity v mem total_size base sizes := by
  rintro ⟨s₀, s', ps, hinit, hmallocs, hzero, -, -⟩
  rw [v.myAllocatorInit_eq] at hinit
  by_cases hlt : slotCount total_size < 2 ^ 31
  · obtain ⟨s₁, hinit', hwf, -, -⟩ := init_spec (s := State.initial mem) rfl h64 hm hlt
    obtain rfl : s₁ = s₀ := Option.some.inj (hinit'.symm.trans hinit)
    have hpos := slotCount_pos h64 hm
    refine hzero (zero_mem_mallocs v hwf hsz ?_ hmallocs)
    rw [hlen, List.length_map, List.length_range']
    exact Nat.sub_lt hpos Nat.one_pos
  · rw [init_undefined (s := State.initial mem) rfl h64 hm (by omega)] at hinit
    cases hinit

theorem not_fullCapacity_fourSlots :
    ¬ FullCapacity .threadLocal (fun _ => 0) 4128 65536 [1, 2, 1024, 0] :=
  not_fullCapacity .threadLocal (fun _ => 0) 4128 65536 [1, 2, 1024, 0] (by decide)
    (by decide) (by decide) (by decide)

/-- A pool of a single slot serves no request at all. -/
theorem not_fullCapacity_singleSlot : Mapped 65536 (trueSize 1032) ∧
    ¬ FullCapacity .global (fun _ => 0) 1032 65536 [1] := by
  have hm : Mapped 65536 (trueSize 1032) := by decide
  refine ⟨hm, ?_⟩
  rintro ⟨s₀, s', ps, hinit, hmallocs, hzero, -, -⟩
  obtain ⟨s₁, hinit', hwf, -, -⟩ :=
    init_spec (s := State.initial fun _ => 0) rfl (by decide) hm (by decide)
  rw [Variant.myAllocatorInit_eq] at hinit
  obtain rfl : s₁ = s₀ := Option.some.inj (hinit'.symm.trans hinit)
  refine hzero (zero_mem_mallocs .global hwf (by decide) ?_ hmallocs)
  rw [List.length_map, List.length_range']
  decide

/-! ### Payloads -/

/-- As `permits`, but only live pointers are released. -/
def permitsLive (v : View) : Op → Bool
  | .malloc _ => true
  | .free p => p ∈ v.pointers
  | .write p off _ => p ∈ v.pointers ∧ off < BLOCK_SIZE

/-- The payloads of live pointers are disjoint, inside the pool, and clear of every header. -/
structure Isolated (s : State) (w : View) : Prop where
  disjoint : w.pointers.Pairwise fun p q => p + BLOCK_SIZE ≤ q ∨ q + BLOCK_SIZE ≤ p
  inside : ∀ p ∈ w.pointers, s.pool ≤ p ∧ p + BLOCK_SIZE ≤ s.pool + s.poolSize
  headers : ∀ p ∈ w.pointers, ∀ a, s.IsSlot a → p + BLOCK_SIZE ≤ a ∨ a + sizeofHeader ≤ p

theorem Inv.isolated (h : Inv l₀ base psize s w l) : Isolated s w := by
  have hslot : ∀ p ∈ w.pointers, ∃ b, s.IsSlot b ∧ p = b + 8 := fun p hp =>
    let ⟨b, hb, e⟩ := h.returned p (h.live p hp); ⟨b, h.initial b hb, e⟩
  refine ⟨h.nodup.imp_of_mem fun {p q} hp hq hne => ?_, ?_, ?_⟩
  · obtain ⟨b, hb, rfl⟩ := hslot p hp
    obtain ⟨c, hc, rfl⟩ := hslot q hq
    have := hb.apart hc (by omega)
    rw [HEADER_BLOCK_SIZE_eq] at this
    rw [BLOCK_SIZE_eq]
    omega
  · intro p hp
    obtain ⟨b, hb, rfl⟩ := hslot p hp
    have := hb.le
    rw [HEADER_BLOCK_SIZE_eq] at this
    rw [BLOCK_SIZE_eq]
    omega
  · intro p hp a ha
    obtain ⟨b, hb, rfl⟩ := hslot p hp
    rw [sizeofHeader_eq, BLOCK_SIZE_eq]
    by_cases hab : a = b
    · omega
    · have := ha.apart hb hab
      rw [HEADER_BLOCK_SIZE_eq] at this
      omega

theorem permits_of_permitsLive (h : ∀ p ∈ w.pointers, p ∈ w.returned) (op : Op)
    (hop : permitsLive w op = true) : permits w op = true := by
  cases op with
  | malloc size => rfl
  | free p => simpa [permits] using h p (by simpa [permitsLive] using hop)
  | write p off x => exact hop

theorem simulationLive (v : Variant) :
    Simulation v.allocator slotSet permitsLive (Refines l₀ base psize) := by
  have hsim : Simulation v.allocator slotSet permits (Refines l₀ base psize) := simulation v
  refine ⟨fun s w F size s' p hR _ => hsim.malloc s w F size s' p hR rfl,
    fun s w F p s' hR hp => hsim.free s w F p s' hR ?_,
    fun s w F p off x hR hp => hsim.write s w F p off x hR hp⟩
  obtain ⟨l, hl, -⟩ := hR
  exact permits_of_permitsLive hl.live (.free p) hp

/-- Every state of every run keeps the payloads isolated, and two runs that make the same calls but
store different bytes get the same answers, call by call. -/
theorem payload_isolation (v : Variant) (mem₁ mem₂ : Mem) (total_size base : Nat) (s₁ s₂ : State)
    (h64 : total_size < 2 ^ 64) (hm : Mapped base (trueSize total_size))
    (hinit₁ : v.myAllocatorInit total_size (some base) (State.initial mem₁) = some s₁)
    (hinit₂ : v.myAllocatorInit total_size (some base) (State.initial mem₂) = some s₂) :
    (∀ ops σ, run (step v.allocator permitsLive) ⟨s₁, View.empty⟩ ops = some σ →
      Isolated σ.heap σ.view) ∧
    ∀ ops₁ ops₂ σ₁ σ₂, ops₁.filter Op.isCall = ops₂.filter Op.isCall →
      run (step v.allocator permitsLive) ⟨s₁, View.empty⟩ ops₁ = some σ₁ →
      run (step v.allocator permitsLive) ⟨s₂, View.empty⟩ ops₂ = some σ₂ →
      σ₁.view.trace = σ₂.view.trace := by
  rw [v.myAllocatorInit_eq] at hinit₁ hinit₂
  have hlt : slotCount total_size < 2 ^ 31 := by
    by_contra hge
    rw [init_undefined (s := State.initial mem₁) rfl h64 hm (by omega)] at hinit₁
    cases hinit₁
  have hstart : ∀ mem s, myAllocatorInit total_size (some base) (State.initial mem) = some s →
      Refines ((List.range' 1 (slotCount total_size - 1)).map fun k => base + HEADER_BLOCK_SIZE * k)
        base (HEADER_BLOCK_SIZE * slotCount total_size) s View.empty
        ((List.range' 1 (slotCount total_size - 1)).map fun k => base + HEADER_BLOCK_SIZE * k).toFinset := by
    intro mem s hs
    obtain ⟨s', hs', hwf, hpool, hsize⟩ := init_spec (s := State.initial mem) rfl h64 hm hlt
    obtain rfl : s' = s := Option.some.inj (hs'.symm.trans hs)
    have hslots : s'.slot = fun k => base + HEADER_BLOCK_SIZE * k := by
      funext k; unfold State.slot; rw [hpool]
    rw [hslots] at hwf
    have := Inv.start hwf
    rw [hpool, hsize] at this
    exact ⟨_, this, rfl⟩
  refine ⟨fun ops σ hr => ?_, fun ops₁ ops₂ σ₁ σ₂ hcalls hr₁ hr₂ => ?_⟩
  · obtain ⟨-, -, l, hl, -⟩ := (simulationLive v).run (hstart mem₁ s₁ hinit₁) hr
    exact hl.isolated
  · exact congrArg View.trace ((simulationLive v).noninterference (fun _ _ _ => rfl)
      (hstart mem₁ s₁ hinit₁) (hstart mem₂ s₂ hinit₂) hcalls hr₁ hr₂)

theorem payload_isolation_fourSlots : ∃ s₁ s₂,
    Variant.global.myAllocatorInit 4128 (some 65536) (State.initial fun _ => 0) = some s₁ ∧
    Variant.global.myAllocatorInit 4128 (some 65536) (State.initial fun _ => 7) = some s₂ ∧
    ∀ ops₁ ops₂ σ₁ σ₂, ops₁.filter Op.isCall = ops₂.filter Op.isCall →
      run (step Variant.global.allocator permitsLive) ⟨s₁, View.empty⟩ ops₁ = some σ₁ →
      run (step Variant.global.allocator permitsLive) ⟨s₂, View.empty⟩ ops₂ = some σ₂ →
      σ₁.view.trace = σ₂.view.trace := by
  have hm : Mapped 65536 (trueSize 4128) := by decide
  obtain ⟨s₁, h₁, -⟩ := init_spec (s := State.initial fun _ => 0) rfl (by decide) hm (by decide)
  obtain ⟨s₂, h₂, -⟩ := init_spec (s := State.initial fun _ => 7) rfl (by decide) hm (by decide)
  rw [← Variant.myAllocatorInit_eq _ _ _ .global] at h₁ h₂
  exact ⟨s₁, s₂, h₁, h₂,
    (payload_isolation .global _ _ 4128 65536 s₁ s₂ (by decide) hm h₁ h₂).2⟩

end OsExercises.FreeList
