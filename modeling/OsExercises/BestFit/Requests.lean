import OsExercises.BestFit.Runs

/-!
# What a request gets, in every reachable state

The statements of this file are about all runs, also those in which the list has been damaged by an
inner split or by a client: the only facts carried along are the static variables (`Statics`), which
no call changes. The search stops at the first block on the list that suits (`FirstFit`), so a
smaller block that fits and lies behind it is passed over (`takesSmallest_iff`). A request next to
`SIZE_MAX` wraps to a few bytes and is served by any free block (`delivers_iff`).
-/

namespace OsExercises.BestFit
open Client Transition

variable {s s' : State} {m : Mem} {base total_size n k p a b c : Nat}

/-! ### The static variables -/

/-- The static variables from the first `my_allocator_init` on. -/
structure Statics (base total_size : Nat) (s : State) : Prop where
  pool : s.pool = base
  poolSize : s.poolSize = total_size
  headerStart : s.headerStart = ⟨false, 0, base, 0⟩
  mutex : s.mutex = false

namespace Statics

theorem congr (h : Statics base total_size s) (m : Mem) :
    Statics base total_size { s with mem := m } := ⟨h.pool, h.poolSize, h.headerStart, h.mutex⟩

theorem next_eq (h : Statics base total_size s) : s.headerStart.next = base := by
  rw [h.headerStart]

theorem lock_eq (h : Statics base total_size s) : s.lock = some { s with mutex := true } :=
  if_neg (by simp [h.mutex])

theorem unlock_eq (h : Statics base total_size s) (m : Mem) :
    State.unlock { s with mem := m, mutex := true } = { s with mem := m } := by
  rw [State.unlock, ← h.mutex]

theorem init {mem : Mem} {s₀ : State} (hm : Mapped base total_size)
    (hinit : myAllocatorInit total_size (some base) (State.initial mem) = some s₀) :
    Statics base total_size s₀ := by
  obtain ⟨s, hs, -⟩ := init_spec (s := State.initial mem) rfl rfl hm
  obtain rfl : s = s₀ := Option.some.inj (hs.symm.trans hinit)
  simp only [myAllocatorInit, State.initial, State.lock, Bool.false_eq_true, if_false,
    Option.bind_eq_bind, Option.bind_some, ne_eq, not_true_eq_false, Option.some.injEq] at hs
  subst hs
  exact ⟨rfl, rfl, rfl, rfl⟩

theorem malloc_eq (h : Statics base total_size s) (hbase : 0 < base) (hn : n ≠ 0) :
    myMalloc n s = (search s.mem (sizeAdd n sizeofHeader) base).map fun c =>
      if c = 0 then (s, 0)
      else ({ s with mem := takeBlock s.mem c (sizeAdd n sizeofHeader) }, sizeAdd c sizeofHeader) := by
  have hpool : s.pool ≠ 0 := by rw [h.pool]; exact Nat.ne_of_gt hbase
  simp only [myMalloc, h.lock_eq, Option.bind_eq_bind, Option.bind_some, hpool, hn, or_self, if_false,
    h.next_eq, Nat.ne_of_gt hbase]
  cases search s.mem (sizeAdd n sizeofHeader) base with
  | none => rfl
  | some c =>
    simp only [Option.bind_some, Option.map_some]
    split
    · exact congrArg (fun s => some (s, 0)) (h.unlock_eq s.mem)
    · exact congrArg (fun s => some (s, sizeAdd c sizeofHeader)) (h.unlock_eq _)

theorem malloc_zero (h : Statics base total_size s) : myMalloc 0 s = some (s, 0) := by
  simp only [myMalloc, h.lock_eq, Option.bind_eq_bind, Option.bind_some, or_true, if_true]
  exact congrArg (fun s => some (s, 0)) (h.unlock_eq s.mem)

theorem malloc (h : Statics base total_size s) (hbase : 0 < base)
    (hm : myMalloc n s = some (s', p)) : Statics base total_size s' := by
  by_cases hn : n = 0
  · rw [hn, h.malloc_zero] at hm
    cases hm
    exact h
  · rw [h.malloc_eq hbase hn] at hm
    obtain ⟨c, -, hc⟩ := Option.map_eq_some_iff.mp hm
    split at hc
    · cases hc; exact h
    · cases hc; exact h.congr _

theorem free (h : Statics base total_size s) (hf : myFree p s = some s') :
    Statics base total_size s' := by
  simp only [myFree, h.lock_eq, Option.bind_eq_bind, Option.bind_some] at hf
  split at hf
  · cases hf; exact ⟨h.pool, h.poolSize, h.headerStart, rfl⟩
  split at hf
  · cases hf; exact ⟨h.pool, h.poolSize, h.headerStart, rfl⟩
  obtain ⟨x, -, hf⟩ := Option.bind_eq_some_iff.mp hf
  obtain ⟨y, -, hf⟩ := Option.bind_eq_some_iff.mp hf
  cases hf
  exact ⟨h.pool, h.poolSize, h.headerStart, rfl⟩

theorem step {permits : View → Op → Bool} (hbase : 0 < base) {σ σ' : Session State} {op : Op}
    (h : Statics base total_size σ.heap) (hs : Client.step allocator permits σ op = some σ') :
    Statics base total_size σ'.heap := by
  cases op with
  | malloc size =>
    obtain ⟨-, s', p, hm, rfl⟩ := step_malloc_eq_some.mp hs
    exact h.malloc hbase hm
  | free p =>
    obtain ⟨-, s', hf, rfl⟩ := step_free_eq_some.mp hs
    exact h.free hf
  | write p off x =>
    obtain ⟨-, rfl⟩ := step_write_eq_some.mp hs
    exact h.congr _

theorem of_run {permits : View → Op → Bool} {mem : Mem} {s₀ : State} {ops : List Op}
    {σ : Session State} (hm : Mapped base total_size)
    (hinit : myAllocatorInit total_size (some base) (State.initial mem) = some s₀)
    (hr : run (Client.step allocator permits) ⟨s₀, View.empty⟩ ops = some σ) :
    Statics base total_size σ.heap :=
  run_inv (I := fun σ => Statics base total_size σ.heap) (fun _ _ _ => step hm.base_pos) (init hm hinit) hr

end Statics

/-! ### The first block that suits -/

/-- `c` is the first block on the list that is free and has at least `k` bytes. -/
def FirstFit (s : State) (k c : Nat) : Prop :=
  c ≠ 0 ∧ suits s.mem k c = true ∧ ∃ l, Path (next s.mem) s.headerStart.next l c ∧
    ∀ b ∈ l, b ≠ 0 ∧ suits s.mem k b = false

/-- The list ends, and none of its blocks is free and has at least `k` bytes. -/
def NoFit (s : State) (k : Nat) : Prop :=
  ∃ l, Chain (next s.mem) 0 s.headerStart.next l ∧ ∀ b ∈ l, suits s.mem k b = false

/-- `b` follows `c` on the list. -/
def Behind (s : State) (c b : Nat) : Prop := OnChain (next s.mem) 0 (next s.mem c) b

theorem base_lt (hm : Mapped base total_size) : base < 2 ^ 64 := by
  have h1 := hm.len_pos
  have h2 : base + total_size ≤ 2 ^ 64 := hm.fits
  omega

theorem suits_iff : suits m k b = true ↔ isFree m b = true ∧ k ≤ size m b := by
  simp [suits]

theorem search_of_path {l : List Nat} (ha : a < 2 ^ 64) (hpath : Path (next m) a l c)
    (hl : ∀ b ∈ l, b ≠ 0 ∧ suits m k b = false) (hc : c = 0 ∨ suits m k c = true) :
    search m k a = some c := by
  have hmem : c ∉ l := by
    intro hmem
    obtain ⟨hne, hno⟩ := hl c hmem
    rcases hc with rfl | hc
    · exact hne rfl
    · rw [hno] at hc; cases hc
  have hchain : Chain (next m) c a l := ⟨hpath, hmem⟩
  exact whileLoop_of_path hpath hl hc (hchain.length_lt (fun b hb => (hl b hb).1) ha (next_lt m))

section Search

variable (h : Statics base total_size s) (hm : Mapped base total_size)
include h hm

theorem search_eq_some_iff (hc : c ≠ 0) : search s.mem k base = some c ↔ FirstFit s k c := by
  rw [FirstFit, h.next_eq]
  constructor
  · intro hs
    obtain ⟨l, hpath, hl, hend⟩ := path_of_whileLoop hs
    exact ⟨hc, hend.resolve_left hc, l, hpath, hl⟩
  · rintro ⟨-, hsuits, l, hpath, hl⟩
    exact search_of_path (base_lt hm) hpath hl (.inr hsuits)

theorem search_eq_zero_iff : search s.mem k base = some 0 ↔ NoFit s k := by
  rw [NoFit, h.next_eq]
  constructor
  · intro hs
    obtain ⟨l, hpath, hl, -⟩ := path_of_whileLoop hs
    exact ⟨l, ⟨hpath, fun h0 => (hl 0 h0).1 rfl⟩, fun b hb => (hl b hb).2⟩
  · rintro ⟨l, hchain, hl⟩
    exact search_of_path (base_lt hm) hchain.1 (fun b hb => ⟨hchain.ne_null hb, hl b hb⟩) (.inl rfl)

/-- A request that is granted is served from the first block that suits, and the other way round. -/
theorem malloc_iff_firstFit (hn : n ≠ 0) (hp : p ≠ 0) : (∃ s', myMalloc n s = some (s', p)) ↔
    ∃ c, FirstFit s (sizeAdd n sizeofHeader) c ∧ sizeAdd c sizeofHeader = p := by
  rw [h.malloc_eq hm.base_pos hn]
  constructor
  · rintro ⟨s', hs'⟩
    obtain ⟨c, hc, heq⟩ := Option.map_eq_some_iff.mp hs'
    split at heq
    · cases heq; exact absurd rfl hp
    · next hne =>
      exact ⟨c, (search_eq_some_iff h hm hne).mp hc, congrArg Prod.snd heq⟩
  · rintro ⟨c, hc, rfl⟩
    rw [(search_eq_some_iff h hm hc.1).mpr hc, Option.map_some, if_neg hc.1]
    exact ⟨_, rfl⟩

theorem FirstFit.lt (hc : FirstFit s k c) : c < 2 ^ 64 := by
  obtain ⟨-, -, l, hpath, -⟩ := hc
  rw [h.next_eq] at hpath
  exact (hpath.lt (base_lt hm) (next_lt s.mem)).2

end Search

/-! ### The choice of the block -/

/-- If `my_malloc(n)` succeeds, no free block that is long enough is smaller than the one taken. -/
def TakesSmallest (s : State) (n : Nat) : Prop :=
  ∀ s' p, myMalloc n s = some (s', p) → p ≠ 0 →
    ∀ b, OnList s b → isFree s.mem b = true → n + sizeofHeader ≤ size s.mem b →
      size s.mem (sizeSub p sizeofHeader) ≤ size s.mem b

/-- A free block that is long enough lies behind the first one and is smaller. The payload of the
first one does not start at the end of the address space. -/
def SmallerBehind (s : State) (n : Nat) : Prop :=
  ∃ c b, FirstFit s (n + sizeofHeader) c ∧ sizeAdd c sizeofHeader ≠ 0 ∧ Behind s c b ∧
    isFree s.mem b = true ∧ n + sizeofHeader ≤ size s.mem b ∧ size s.mem b < size s.mem c

theorem FirstFit.behind (hc : FirstFit s k c) (hb : OnList s b) (hk : suits s.mem k b = true) :
    b = c ∨ Behind s c b := by
  obtain ⟨-, -, l, hpath, hl⟩ := hc
  have hmem : b ∉ l := fun hmem => by rw [(hl b hmem).2] at hk; cases hk
  cases hb.of_path hpath hmem with
  | here => exact .inl rfl
  | there _ _ _ h => exact .inr h

theorem FirstFit.onList (hc : FirstFit s k c) (hb : Behind s c b) : OnList s b := by
  obtain ⟨hne, -, l, hpath, hl⟩ := hc
  exact (OnChain.there c b hne hb).append_path hpath fun h0 => (hl 0 h0).1 rfl

theorem takesSmallest_iff (permits : View → Op → Bool) (mem : Mem) (total_size base : Nat) (s₀ : State)
    (ops : List Op) (σ : Session State) (n : Nat) (hm : Mapped base total_size)
    (hinit : myAllocatorInit total_size (some base) (State.initial mem) = some s₀)
    (hr : run (step allocator permits) ⟨s₀, View.empty⟩ ops = some σ) (hn : 1 ≤ n)
    (hwrap : n + sizeofHeader < 2 ^ 64) : TakesSmallest σ.heap n ↔ ¬ SmallerBehind σ.heap n := by
  have h := Statics.of_run hm hinit hr
  have hsize : sizeAdd n sizeofHeader = n + sizeofHeader := sizeAdd_of_lt hwrap
  constructor
  · rintro htakes ⟨c, b, hc, hp, hb, hfree, hge, hlt⟩
    have hfirst : FirstFit σ.heap (sizeAdd n sizeofHeader) c := by rwa [hsize]
    obtain ⟨s', hs'⟩ := (malloc_iff_firstFit (n := n) h hm (by omega) hp).mpr ⟨c, hfirst, rfl⟩
    have hle := htakes s' _ hs' hp b (hc.onList hb) hfree hge
    rw [sizeSub_sizeAdd (FirstFit.lt h hm hc)] at hle
    omega
  · intro hno s' p hs' hp b hb hfree hge
    obtain ⟨c, hc, rfl⟩ := (malloc_iff_firstFit h hm (by omega) hp).mp ⟨s', hs'⟩
    rw [hsize] at hc
    rw [sizeSub_sizeAdd (FirstFit.lt h hm hc)]
    rcases hc.behind hb (suits_iff.mpr ⟨hfree, hge⟩) with rfl | hbehind
    · exact Nat.le_refl _
    · by_contra hlt
      exact hno ⟨c, b, hc, hp, hbehind, hfree, hge, by omega⟩

/-- A run on a pool of 512 bytes that leaves holes of 160, 96 and 128 bytes, in this order. -/
def threeHoles : List Op :=
  [.malloc 128, .malloc 32, .malloc 64, .malloc 32, .free 65568, .free 65792]

theorem takesSmallest_threeHoles : ∃ s₀ σ,
    myAllocatorInit 512 (some 65536) (State.initial fun _ => 0) = some s₀ ∧
    run (step allocator permits) ⟨s₀, View.empty⟩ threeHoles = some σ ∧
    (TakesSmallest σ.heap 64 ↔ ¬ SmallerBehind σ.heap 64) := by
  have hlive : (after threeHoles).map (fun σ => σ.view.live) = some [(65888, 32), (65728, 32)] := by
    decide +kernel
  obtain ⟨s₀, σ, hinit, hr, -⟩ := exists_of_after hlive
  exact ⟨s₀, σ, hinit, hr, takesSmallest_iff permits _ 512 65536 s₀ threeHoles σ 64 mapped_512 hinit hr
    (by decide) (by decide)⟩

/-- A request of 64 bytes, 96 with the header, takes the first hole, of 160 bytes, and passes over
the hole of 96 bytes. -/
theorem not_takesSmallest_threeHoles : Mapped 65536 512 ∧ ∃ s₀ σ,
    myAllocatorInit 512 (some 65536) (State.initial fun _ => 0) = some s₀ ∧
    run (step allocator permits) ⟨s₀, View.empty⟩ threeHoles = some σ ∧
    ¬ TakesSmallest σ.heap 64 := by
  have hfields : (after threeHoles).map (fun σ => ((σ.heap.headerStart.next, next σ.heap.mem 65536,
      next σ.heap.mem 65696), (isFree σ.heap.mem 65760, size σ.heap.mem 65760,
      size σ.heap.mem 65536), (myMalloc 64 σ.heap).map Prod.snd)) =
      some ((65536, 65696, 65760), (true, 96, 160), some 65568) := by
    decide +kernel
  obtain ⟨s₀, σ, hinit, hr, hfields⟩ := exists_of_after hfields
  simp only [Prod.mk.injEq] at hfields
  obtain ⟨⟨hhead, hnext, hnext'⟩, ⟨hfree, hsize, hsize'⟩, hm⟩ := hfields
  refine ⟨mapped_512, s₀, σ, hinit, hr, fun htakes => ?_⟩
  obtain ⟨⟨s', p⟩, hm, rfl⟩ := Option.map_eq_some_iff.mp hm
  have hhole : OnList σ.heap 65760 := by
    rw [OnList, hhead]
    refine .there _ _ (by decide) ?_
    rw [hnext]
    refine .there _ _ (by decide) ?_
    rw [hnext']
    exact .here _ (by decide)
  have hle := htakes s' _ hm (by decide) 65760 hhole hfree (by rw [hsize]; decide)
  have hblock : sizeSub 65568 sizeofHeader = 65536 := by decide
  rw [hsize, hblock, hsize'] at hle
  omega

/-! ### The size of the block -/

/-- What `my_malloc(n)` hands out is `n` bytes inside a block that is long enough, and a request
larger than the pool is refused and changes nothing. -/
structure Delivers (s : State) (n : Nat) : Prop where
  room : ∀ s' p, myMalloc n s = some (s', p) → p ≠ 0 →
    n + sizeofHeader ≤ size s'.mem (sizeSub p sizeofHeader) ∧
      p + n ≤ sizeSub p sizeofHeader + size s'.mem (sizeSub p sizeofHeader)
  oversize : s.poolSize < n → myMalloc n s = some (s, 0)

theorem size_setSize (m : Mem) (b : Nat) {v : Nat} (hv : v < 2 ^ 64) : size (setSize m b v) b = v :=
  (get_set_same ..).trans (Nat.mod_eq_of_lt hv)

theorem isFree_takeBlock (m : Mem) (c k : Nat) : isFree (takeBlock m c k) c = false := by
  have hlast : ∀ m' v, isFree (setSize (setIsFree m' c false) c v) c = false := by
    intro m' v
    refine (congrArg (fun x => decide (x ≠ 0)) (get_set_ne (by nofun) ..)).trans ?_
    exact congrArg Header.isFree (header_setIsFree m' c false)
  unfold takeBlock
  split
  · exact hlast ..
  · exact hlast ..

/-- The block keeps at least the bytes that were asked of it. -/
theorem le_size_takeBlock (hk : k < 2 ^ 64) (hle : k ≤ size m c) : k ≤ size (takeBlock m c k) c := by
  unfold takeBlock
  split
  · rw [size_setSize _ _ (size_lt m c)]
    exact hle
  · rw [size_setSize _ _ hk]

theorem Delivers.of_null (h : myMalloc n s = some (s, 0)) : Delivers s n := by
  refine ⟨fun s' p hs' hp => ?_, fun _ => h⟩
  rw [h] at hs'
  cases hs'
  exact absurd rfl hp

/-- On a machine with pages the sum does not wrap for a request that is not larger than the pool. -/
theorem Delivers.of_le (h : Statics base total_size s) (hm : Mapped base total_size)
    (hpage : PageAligned base) (hle : n ≤ s.poolSize) : Delivers s n := by
  by_cases hzero : n = 0
  · rw [hzero]
    exact .of_null h.malloc_zero
  refine ⟨fun s' p hs' hp => ?_, fun hlt => by omega⟩
  have hpos := hm.base_pos
  have hfits : base + total_size ≤ 2 ^ 64 := hm.fits
  have hpage' := Nat.le_of_dvd hpos hpage
  rw [h.poolSize] at hle
  have hsize : sizeAdd n sizeofHeader = n + 32 := sizeAdd_header (by omega)
  rw [h.malloc_eq hpos hzero, hsize] at hs'
  obtain ⟨c, hc, heq⟩ := Option.map_eq_some_iff.mp hs'
  split at heq
  · cases heq; exact absurd rfl hp
  next hne =>
  cases heq
  have hfirst := (search_eq_some_iff h hm hne).mp hc
  have hroom := le_size_takeBlock (m := s.mem) (c := c) (by omega) (suits_iff.mp hfirst.2.1).2
  have hptr : sizeAdd c sizeofHeader ≤ c + 32 := Nat.mod_le ..
  rw [sizeSub_sizeAdd (FirstFit.lt h hm hfirst)]
  refine ⟨hroom, ?_⟩
  show _ ≤ c + size (takeBlock s.mem c (n + 32)) c
  omega

theorem delivers_iff (permits : View → Op → Bool) (mem : Mem) (total_size base : Nat) (s₀ : State)
    (ops : List Op) (σ : Session State) (n : Nat) (hm : Mapped base total_size)
    (hpage : PageAligned base)
    (hinit : myAllocatorInit total_size (some base) (State.initial mem) = some s₀)
    (hr : run (step allocator permits) ⟨s₀, View.empty⟩ ops = some σ) :
    Delivers σ.heap n ↔ n ≤ σ.heap.poolSize ∨ NoFit σ.heap (sizeAdd n sizeofHeader) := by
  have h := Statics.of_run hm hinit hr
  constructor
  · intro hdelivers
    by_cases hle : n ≤ σ.heap.poolSize
    · exact .inl hle
    have hnull := hdelivers.oversize (by omega)
    rw [h.malloc_eq hm.base_pos (by omega)] at hnull
    obtain ⟨c, hc, heq⟩ := Option.map_eq_some_iff.mp hnull
    by_cases hzero : c = 0
    · rw [hzero] at hc
      exact .inr ((search_eq_zero_iff h hm).mp hc)
    · rw [if_neg hzero] at heq
      have hmem := congrArg (fun r => isFree r.1.mem c) heq
      have hfree := (suits_iff.mp ((search_eq_some_iff h hm hzero).mp hc).2.1).1
      rw [hfree, isFree_takeBlock] at hmem
      cases hmem
  · rintro (hle | hno)
    · exact .of_le h hm hpage hle
    · by_cases hzero : n = 0
      · rw [hzero]
        exact .of_null h.malloc_zero
      · refine .of_null ?_
        rw [h.malloc_eq hm.base_pos hzero, (search_eq_zero_iff h hm).mpr hno]
        rfl

theorem delivers_threeHoles : ∃ s₀ σ,
    myAllocatorInit 512 (some 65536) (State.initial fun _ => 0) = some s₀ ∧
    run (step allocator permits) ⟨s₀, View.empty⟩ threeHoles = some σ ∧ σ.heap.poolSize = 512 ∧
    Delivers σ.heap 128 := by
  have hsize : (after threeHoles).map (fun σ => σ.heap.poolSize) = some 512 := by decide +kernel
  obtain ⟨s₀, σ, hinit, hr, hsize⟩ := exists_of_after hsize
  refine ⟨s₀, σ, hinit, hr, hsize, ?_⟩
  exact (delivers_iff permits _ 512 65536 s₀ threeHoles σ 128 mapped_512 (by decide) hinit
    hr).mpr (.inl (by rw [hsize]; decide))

/-- `SIZE_MAX + 32` wraps to 31, and the new pool gives away a block of 31 bytes. -/
theorem not_delivers_max : Mapped 65536 512 ∧ PageAligned 65536 ∧ ∃ s₀,
    myAllocatorInit 512 (some 65536) (State.initial fun _ => 0) = some s₀ ∧
    ¬ Delivers s₀ (2 ^ 64 - 1) := by
  have hfields : ((myAllocatorInit 512 (some 65536) (State.initial fun _ => 0)).bind
      (myMalloc (2 ^ 64 - 1))).map (fun r => (r.2, size r.1.mem 65536)) = some (65568, 31) := by
    decide +kernel
  obtain ⟨⟨s', p⟩, hs', hfields⟩ := Option.map_eq_some_iff.mp hfields
  obtain ⟨s₀, hinit, hm⟩ := Option.bind_eq_some_iff.mp hs'
  simp only [Prod.mk.injEq] at hfields
  obtain ⟨rfl, hsize⟩ := hfields
  refine ⟨mapped_512, by decide, s₀, hinit, fun h => ?_⟩
  have hroom := (h.room s' _ hm (by decide)).1
  have hblock : sizeSub 65568 sizeofHeader = 65536 := by decide
  rw [hblock, hsize] at hroom
  exact absurd hroom (by decide)

end OsExercises.BestFit
