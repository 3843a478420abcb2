import OsExercises.BestFit.Invariant

/-!
# Runs of the best-fit allocator

What holds in every state of a run without inner splits: the payloads are isolated
(`isolated_of_meets`), the list is a doubly linked tiling of the pool (`doublyLinked_iff_meets`) and
all that is free is merged (`merged_of_meets`). The first inner split breaks the list at once; some
releases later a live block is merged into a free one (`overlap`).
-/

namespace OsExercises.BestFit
open Client Tiling Transition

variable {s s' : State} {v : View} {l P Q : List Block} {b c : Block} {n : Nat}

/-! ### What the states promise -/

/-- The payloads of live pointers are disjoint, inside the pool, and clear of every header. -/
structure Isolated (s : State) (v : View) : Prop where
  disjoint : v.live.Pairwise fun x y => x.1 + x.2 ≤ y.1 ∨ y.1 + y.2 ≤ x.1
  inside : ∀ x ∈ v.live, s.pool ≤ x.1 ∧ x.1 + x.2 ≤ s.pool + s.poolSize
  headers : ∀ x ∈ v.live, ∀ a, OnList s a → x.1 + x.2 ≤ a ∨ a + sizeofHeader ≤ x.1

/-- The list is a consistent doubly linked tiling of the pool. -/
structure DoublyLinked (s : State) : Prop where
  first : s.headerStart.next = s.pool ∧ prev s.mem s.pool = 0
  links : ∀ b, OnList s b → next s.mem b ≠ 0 →
    next s.mem b = b + size s.mem b ∧ prev s.mem (next s.mem b) = b
  sizes : ∃ l, Chain (next s.mem) 0 s.headerStart.next l ∧ (l.map (size s.mem)).sum = s.poolSize

/-- No two neighbours are both free, and without live pointers the pool is one free block that can
be handed out whole. -/
structure Merged (s : State) (v : View) : Prop where
  neighbours : ∀ b c, OnList s b → OnList s c → c = b + size s.mem b →
    ¬ (isFree s.mem b = true ∧ isFree s.mem c = true)
  whole : v.live = [] → Chain (next s.mem) 0 s.headerStart.next [s.pool] ∧
    isFree s.mem s.pool = true ∧ size s.mem s.pool = s.poolSize ∧
    ∃ s' p, p ≠ 0 ∧ myMalloc (s.poolSize - sizeofHeader) s = some (s', p)

theorem Forward.onList_iff (h : Forward s l) {a : Nat} : OnList s a ↔ ∃ b ∈ l, b.addr = a := by
  rw [OnList, ← h.chain.mem_iff, List.mem_map]

theorem Forward.sizes (h : Forward s l) :
    ∃ l, Chain (next s.mem) 0 s.headerStart.next l ∧ (l.map (size s.mem)).sum = s.poolSize := by
  refine ⟨l.map Block.addr, h.chain, ?_⟩
  rw [List.map_map, ← h.span, Tiling.span]
  exact congrArg List.sum (List.map_congr_left fun b hb => (h.stored b hb).size)

theorem Forward.next_append_cons (h : Forward s (P ++ b :: c :: Q)) : next s.mem b.addr = c.addr := by
  have hpath := h.path
  rw [List.map_append, List.map_cons, List.map_cons] at hpath
  exact (path_append_cons.mp hpath).2.1

theorem Forward.next_last (h : Forward s (P ++ [b])) : next s.mem b.addr = 0 := by
  have hpath := h.path
  rw [List.map_append, List.map_cons] at hpath
  exact (path_append_cons.mp hpath).2

theorem Linked.prev_append_cons (h : Linked s (P ++ b :: c :: Q)) : prev s.mem c.addr = b.addr :=
  (back_cons.mp (back_append_cons.mp h.back).1).2

theorem Forward.addr_append_cons (h : Forward s (P ++ b :: c :: Q)) : c.addr = b.addr + b.size := by
  have := h.tiles
  simp only [tiles_append, tiles_cons] at this
  omega

namespace Inv

theorem isolated (h : Inv s v l) : Isolated s v := by
  refine ⟨?_, ?_, ?_⟩
  · refine (List.pairwise_map.mp h.nodup).imp_of_mem fun {x y} hx hy hne => ?_
    obtain ⟨-, b, hb, -, hxb, hxsize⟩ := h.owned x hx
    obtain ⟨-, c, hc, -, hyc, hysize⟩ := h.owned y hy
    have hbc : b ≠ c := by rintro rfl; omega
    have := h.forward.tiles.apart hb hc hbc
    omega
  · intro x hx
    obtain ⟨-, b, hb, -, hxb, hxsize⟩ := h.owned x hx
    have := h.forward.bounds hb
    omega
  · intro x hx a ha
    obtain ⟨-, b, hb, -, hxb, hxsize⟩ := h.owned x hx
    obtain ⟨c, hc, rfl⟩ := h.forward.onList_iff.mp ha
    rw [Forward.sizeofHeader_eq]
    by_cases hbc : b = c
    · subst hbc; omega
    · have h1 := h.forward.header_apart hb hc hbc
      have h2 := h.forward.tiles.apart hb hc hbc
      omega

theorem doublyLinked (h : Inv s v l) : DoublyLinked s := by
  refine ⟨⟨h.forward.headerStart_eq, ?_⟩, ?_, h.forward.sizes⟩
  · rcases l with _ | ⟨b, l⟩
    · exact absurd rfl h.forward.ne_nil
    · rw [← h.forward.tiles.1]
      exact (back_cons.mp h.linked.back).2
  · intro a ha hne
    obtain ⟨b, hb, rfl⟩ := h.forward.onList_iff.mp ha
    obtain ⟨P, Q, rfl⟩ := List.append_of_mem hb
    rcases Q with _ | ⟨c, Q⟩
    · exact absurd h.forward.next_last hne
    · rw [h.forward.next_append_cons, (h.forward.stored b hb).size]
      exact ⟨h.forward.addr_append_cons, h.linked.prev_append_cons⟩

theorem not_both_free (h : Inv s v l) (hb : b ∈ l) (hc : c ∈ l) (hbc : c.addr = b.addr + b.size) :
    ¬ (b.free = true ∧ c.free = true) := by
  obtain ⟨P, Q, rfl⟩ := List.append_of_mem hb
  rcases Q with _ | ⟨d, Q⟩
  · have htiles := h.forward.tiles
    have hbounds := htiles.bounds hc
    have hpos := h.forward.size_pos
    simp only [tiles_append, tiles_cons, span_append, span_cons, span_nil] at htiles hbounds
    rw [Forward.sizeofHeader_eq] at hbounds
    omega
  · have hcd : c = d := h.eq_of_addr hc (by simp) (hbc.trans h.forward.addr_append_cons.symm)
    rw [hcd]
    exact (List.isChain_append_cons_cons.mp h.coalesced).2.1

/-- Without live pointers the list is one free block. -/
theorem eq_whole (h : Inv s v l) (hlive : v.live = []) : l = [⟨s.pool, s.poolSize, true⟩] := by
  have hfree : ∀ b ∈ l, b.free = true := by
    intro b hb
    by_contra hb'
    have hp := h.live b hb (by simpa using hb')
    rw [View.pointers, hlive] at hp
    cases hp
  obtain ⟨b, rfl⟩ := h.coalesced.eq_singleton h.forward.ne_nil hfree
  have hspan := h.forward.span
  simp only [span_cons, span_nil, Nat.add_zero] at hspan
  exact congrArg (· :: []) (Block.ext h.forward.tiles.1 hspan (hfree b (by simp)))

theorem merged (h : Inv s v l) (hsize : sizeofHeader < s.poolSize) : Merged s v := by
  refine ⟨?_, ?_⟩
  · rintro a a' ha ha' haa' ⟨h1, h2⟩
    obtain ⟨b, hb, rfl⟩ := h.forward.onList_iff.mp ha
    obtain ⟨c, hc, rfl⟩ := h.forward.onList_iff.mp ha'
    rw [(h.forward.stored b hb).free] at h1
    rw [(h.forward.stored c hc).free] at h2
    rw [(h.forward.stored b hb).size] at haa'
    exact h.not_both_free hb hc haa' ⟨h1, h2⟩
  · intro hlive
    obtain rfl := h.eq_whole hlive
    have hst := h.forward.stored _ (List.mem_singleton_self _)
    refine ⟨h.forward.chain, hst.free, hst.size, ?_⟩
    have hsmall := h.small
    rw [Forward.sizeofHeader_eq] at *
    rcases h.forward.malloc (n := s.poolSize - 32) (by omega) with ⟨h0 | hno, -⟩ | ⟨-, P, b, Q, -, -, -, hm⟩
    · omega
    · have hfits := hno _ (List.mem_singleton_self _)
      rw [fits_iff.mpr ⟨rfl, by show s.poolSize - 32 + 32 ≤ s.poolSize; omega⟩] at hfits
      cases hfits
    · exact ⟨_, _, Nat.succ_ne_zero _, hm⟩

end Inv

/-! ### Runs without inner splits -/

section Runs

variable {mem : Mem} {total_size base : Nat} {s₀ : State} {ops : List Op} {σ σ' : Session State}

/-- What carries over from state to state. -/
def RunInv (total_size : Nat) (σ : Session State) : Prop :=
  ∃ l, Inv σ.heap σ.view l ∧ σ.heap.poolSize = total_size

theorem RunInv.step {op : Op} (h : RunInv total_size σ) (hC : NoInnerSplit σ op)
    (hs : Client.step allocator permits σ op = some σ') : RunInv total_size σ' := by
  obtain ⟨l, hinv, hsize⟩ := h
  obtain ⟨l', hinv', hsize'⟩ := hinv.step hC hs
  exact ⟨l', hinv', hsize'.trans hsize⟩

theorem RunInv.init (hlt : total_size < 2 ^ 31) (hm : Mapped base total_size)
    (hinit : myAllocatorInit total_size (some base) (State.initial mem) = some s₀) :
    RunInv total_size ⟨s₀, View.empty⟩ := by
  obtain ⟨s, hs, -, hsize, hlinked⟩ := init_spec (s := State.initial mem) rfl rfl hm
  obtain rfl : s = s₀ := Option.some.inj (hs.symm.trans hinit)
  exact ⟨_, Inv.start hlinked (by rw [hsize]; exact hlt) rfl, hsize⟩

theorem Forward.exists_of_innerSplit (h : Forward s l) (hsplit : InnerSplit s n) :
    n ≠ 0 ∧ ∃ P b c Q, l = P ++ b :: c :: Q ∧ (∀ d ∈ P, fits (n + 32) d = false) ∧
      fits (n + 32) b = true ∧ n + 32 + 32 ≤ b.size := by
  obtain ⟨hzero, l₁, a, l₂, hchain, hl₂, hl₁, hfree, hsize⟩ := hsplit
  obtain ⟨P, R, rfl, rfl, hR⟩ := List.map_eq_append_iff.mp (h.chain.unique hchain)
  obtain ⟨b, Q, rfl, rfl, rfl⟩ := List.map_eq_cons_iff.mp hR
  rcases Q with _ | ⟨c, Q⟩
  · exact absurd rfl hl₂
  have hb := h.stored b (by simp)
  rw [hb.free] at hfree
  rw [hb.size, Forward.sizeofHeader_eq] at hsize
  refine ⟨hzero, P, b, c, Q, rfl, fun d hd => ?_, fits_iff.mpr ⟨hfree, by omega⟩, hsize⟩
  by_contra hfits
  have hd' := h.stored d (by simp [hd])
  obtain ⟨hdfree, hdsize⟩ := fits_iff.mp (by simpa using hfits)
  have := hl₁ d.addr (List.mem_map_of_mem hd) (hd'.free.trans hdfree)
  rw [hd'.size, Forward.sizeofHeader_eq] at this
  omega

/-- The successor of a split block still points back to the first part, not to the rest. -/
theorem Linked.not_doublyLinked_of_split {k : Nat} (h : Linked s (P ++ b :: c :: Q)) (hk : 32 ≤ k)
    (hge : k + 32 ≤ b.size) : ¬ DoublyLinked { s with mem := takeBlock s.mem b.addr k } := by
  intro hdl
  have hforward := h.take_split hk hge
  have hrest : OnList _ (b.addr + k) := hforward.onList_iff.mpr ⟨⟨b.addr + k, b.size - k, true⟩, by simp, rfl⟩
  have hnext : next (takeBlock s.mem b.addr k) (b.addr + k) = c.addr := by
    rw [← List.singleton_append, ← List.append_assoc] at hforward
    exact hforward.next_append_cons
  have hpos := h.addr_pos (b := c) (by simp)
  have hlink : prev (takeBlock s.mem b.addr k) c.addr = b.addr + k := by
    rw [← hnext]
    exact (hdl.links _ hrest (by rw [hnext]; exact Nat.ne_of_gt hpos)).2
  have hbounds := h.bounds (b := b) (by simp)
  have hfits := h.pool_fits
  have hsize := h.size_stored (b := b) (by simp)
  have hcb := h.addr_append_cons
  have hframe : header (takeBlock s.mem b.addr k) c.addr = header s.mem c.addr :=
    header_take_split_apart hk (by omega) (by omega) (by omega) (by omega)
  have hstale : prev (takeBlock s.mem b.addr k) c.addr = b.addr :=
    (congrArg Header.prev hframe).trans h.prev_append_cons
  omega

theorem RunInv.not_doublyLinked {op : Op} (h : RunInv total_size σ) (hC : ¬ NoInnerSplit σ op)
    (hs : Client.step allocator permits σ op = some σ') : ¬ DoublyLinked σ'.heap := by
  cases op with
  | free p => exact absurd trivial hC
  | write p off x => exact absurd trivial hC
  | malloc n =>
    obtain ⟨l, hinv, -⟩ := h
    obtain ⟨hp, s', p, hm, rfl⟩ := step_malloc_eq_some.mp hs
    have hn : n + 32 < 2 ^ 64 := of_decide_eq_true hp
    obtain ⟨hzero, P, b, c, Q, rfl, hP, hb, hge⟩ := hinv.forward.exists_of_innerSplit (not_not.mp hC)
    have hm' := hinv.forward.malloc_found hn hzero hP hb
    obtain ⟨rfl, rfl⟩ := Prod.mk.inj (Option.some.inj (hm'.symm.trans hm))
    exact hinv.linked.not_doublyLinked_of_split (by omega) hge

end Runs

/-! ### Isolation -/

theorem isolated_of_meets (mem : Mem) (total_size base : Nat) (s₀ : State) (ops : List Op)
    (hlt : total_size < 2 ^ 31) (hm : Mapped base total_size)
    (hinit : myAllocatorInit total_size (some base) (State.initial mem) = some s₀)
    (hC : Meets (step allocator permits) NoInnerSplit ⟨s₀, View.empty⟩ ops) :
    Throughout (step allocator permits) (fun σ => Isolated σ.heap σ.view) ⟨s₀, View.empty⟩ ops :=
  throughout_of_meets (fun _ _ _ => RunInv.step) (fun _ ⟨_, h, _⟩ => h.isolated)
    (RunInv.init hlt hm hinit) hC

theorem mapped_512 : Mapped 65536 512 := by decide

def after (ops : List Op) : Option (Session State) :=
  (myAllocatorInit 512 (some 65536) (State.initial fun _ => 0)).bind fun s₀ =>
    run (step allocator permits) ⟨s₀, View.empty⟩ ops

theorem exists_of_after {α : Type} {ops : List Op} {f : Session State → α} {x : α}
    (h : (after ops).map f = some x) : ∃ s₀ σ,
    myAllocatorInit 512 (some 65536) (State.initial fun _ => 0) = some s₀ ∧
    run (step allocator permits) ⟨s₀, View.empty⟩ ops = some σ ∧ f σ = x := by
  obtain ⟨σ, hσ, hf⟩ := Option.map_eq_some_iff.mp h
  obtain ⟨s₀, hinit, hr⟩ := Option.bind_eq_some_iff.mp hσ
  exact ⟨s₀, σ, hinit, hr, hf⟩

/-- A run on a pool of 512 bytes: two blocks are carved of the whole pool, the first is written to, and
both are released. -/
def carveAndRelease : List Op :=
  [.malloc 128, .malloc 32, .write 65568 127 0xff, .free 65568, .free 65728]

/-- The block at the start of the pool is taken when the second one is carved. -/
theorem not_innerSplit_second {σ : Session State} (h : after [.malloc 128] = some σ) :
    ¬ InnerSplit σ.heap 32 := by
  have hfields : (after [.malloc 128]).map (fun σ => (σ.heap.headerStart.next, next σ.heap.mem 65536,
      next σ.heap.mem 65696, isFree σ.heap.mem 65536)) = some (65536, 65696, 0, false) := by
    decide +kernel
  rw [h, Option.map_some, Option.some.injEq] at hfields
  simp only [Prod.mk.injEq] at hfields
  obtain ⟨hhead, hnext, hlast, htaken⟩ := hfields
  rintro ⟨-, P, b, Q, hchain, hQ, -, hfree, -⟩
  have htwo : Chain (next σ.heap.mem) 0 σ.heap.headerStart.next [65536, 65696] :=
    chain_cons.2 ⟨hhead, by decide, chain_cons.2 ⟨hnext, by decide, chain_nil.2 hlast⟩⟩
  have hlist : P ++ b :: Q = [65536, 65696] := hchain.unique htwo
  cases P with
  | nil =>
    obtain rfl : b = 65536 := (List.cons.inj hlist).1
    rw [htaken] at hfree
    cases hfree
  | cons a P =>
    have hlength := congrArg List.length hlist
    have hpos := List.length_pos_iff.mpr hQ
    simp only [List.cons_append, List.length_cons, List.length_append, List.length_nil] at hlength
    omega

theorem meets_carveAndRelease {s₀ : State} {b : Block}
    (hinit : myAllocatorInit 512 (some 65536) (State.initial fun _ => 0) = some s₀) (h : Linked s₀ [b]) :
    Meets (step allocator permits) NoInnerSplit ⟨s₀, View.empty⟩ carveAndRelease := by
  refine .cons (fun hsplit => ?_) fun σ hσ => .cons (not_innerSplit_second ?_) fun _ _ =>
    .cons trivial fun _ _ => .cons trivial fun _ _ => .cons trivial fun _ _ => meets_nil
  · obtain ⟨-, P, c, d, Q, hl, -⟩ := h.exists_of_innerSplit hsplit
    have hlength := congrArg List.length hl
    simp only [List.length_append, List.length_cons, List.length_nil] at hlength
    omega
  · rw [after, hinit, Option.bind_some, run_cons_of_eq hσ]
    rfl

theorem isolated_carveAndRelease : ∃ s₀,
    myAllocatorInit 512 (some 65536) (State.initial fun _ => 0) = some s₀ ∧
    Throughout (step allocator permits) (fun σ => Isolated σ.heap σ.view) ⟨s₀, View.empty⟩
      carveAndRelease := by
  obtain ⟨s₀, hinit, -, -, hl⟩ := init_spec (s := State.initial fun _ => 0) rfl rfl mapped_512
  exact ⟨s₀, hinit, isolated_of_meets _ 512 65536 s₀ _ (by decide) mapped_512 hinit
    (meets_carveAndRelease hinit hl)⟩

/-- A run on a pool of 512 bytes: the hole left by the first of two blocks is split by the last
request. -/
def splitHole : List Op := [.malloc 128, .malloc 32, .free 65568, .malloc 32]

/-- The rest of the hole is handed out, and the two blocks around it are released. The second
release follows the stale `prev` past the live block and merges all of it. -/
def overlap : List Op := splitHole ++ [.malloc 64, .free 65568, .free 65728, .malloc 100]

/-- Two live payloads share the bytes from 65632 to 65668. -/
theorem not_isolated_overlap : Mapped 65536 512 ∧ ∃ s₀ σ,
    myAllocatorInit 512 (some 65536) (State.initial fun _ => 0) = some s₀ ∧
    run (step allocator permits) ⟨s₀, View.empty⟩ overlap = some σ ∧ ¬ Isolated σ.heap σ.view := by
  have hlive : (after overlap).map (fun σ => σ.view.live) = some [(65568, 100), (65632, 64)] := by
    decide +kernel
  obtain ⟨s₀, σ, hinit, hr, hlive⟩ := exists_of_after hlive
  refine ⟨mapped_512, s₀, σ, hinit, hr, fun h => ?_⟩
  have hdisjoint := h.disjoint
  rw [hlive] at hdisjoint
  exact absurd hdisjoint (by decide)

/-! ### The tiling -/

/-- The list stays a doubly linked tiling exactly in the runs without inner splits. -/
theorem doublyLinked_iff_meets (mem : Mem) (total_size base : Nat) (s₀ : State) (ops : List Op)
    (σ : Session State) (hlt : total_size < 2 ^ 31) (hm : Mapped base total_size)
    (hinit : myAllocatorInit total_size (some base) (State.initial mem) = some s₀)
    (hr : run (step allocator permits) ⟨s₀, View.empty⟩ ops = some σ) :
    Throughout (step allocator permits) (fun σ => DoublyLinked σ.heap) ⟨s₀, View.empty⟩ ops ↔
      Meets (step allocator permits) NoInnerSplit ⟨s₀, View.empty⟩ ops :=
  throughout_iff_meets (fun _ _ _ => RunInv.step) (fun _ ⟨_, h, _⟩ => h.doublyLinked)
    (fun _ _ _ => RunInv.not_doublyLinked) (RunInv.init hlt hm hinit) hr

theorem doublyLinked_carveAndRelease : ∃ s₀,
    myAllocatorInit 512 (some 65536) (State.initial fun _ => 0) = some s₀ ∧
    Throughout (step allocator permits) (fun σ => DoublyLinked σ.heap) ⟨s₀, View.empty⟩
      carveAndRelease := by
  have hlive : (after carveAndRelease).map (fun σ => σ.view.live) = some [] := by decide +kernel
  obtain ⟨s₀, σ, hinit, hr, -⟩ := exists_of_after hlive
  obtain ⟨s, hs, -, -, hl⟩ := init_spec (s := State.initial fun _ => 0) rfl rfl mapped_512
  obtain rfl : s = s₀ := Option.some.inj (hs.symm.trans hinit)
  exact ⟨s, hinit, (doublyLinked_iff_meets _ 512 65536 s _ σ (by decide) mapped_512 hinit hr).mpr
     (meets_carveAndRelease hinit hl)⟩

/-- The rest of the hole is at 65600, the block behind it still points back to 65536. -/
theorem not_doublyLinked_splitHole : Mapped 65536 512 ∧ ∃ s₀ σ,
    myAllocatorInit 512 (some 65536) (State.initial fun _ => 0) = some s₀ ∧
    run (step allocator permits) ⟨s₀, View.empty⟩ splitHole = some σ ∧ ¬ DoublyLinked σ.heap := by
  have hfields : (after splitHole).map (fun σ => (σ.heap.headerStart.next, next σ.heap.mem 65536,
      next σ.heap.mem 65600, prev σ.heap.mem 65696)) = some (65536, 65600, 65696, 65536) := by
    decide +kernel
  obtain ⟨s₀, σ, hinit, hr, hfields⟩ := exists_of_after hfields
  simp only [Prod.mk.injEq] at hfields
  obtain ⟨hhead, hnext, hnext', hprev⟩ := hfields
  refine ⟨mapped_512, s₀, σ, hinit, hr, fun h => ?_⟩
  have hrest : OnList σ.heap 65600 := by
    rw [OnList, hhead]
    refine .there _ _ (by decide) ?_
    rw [hnext]
    exact .here _ (by decide)
  have hlink := (h.links 65600 hrest (by rw [hnext']; decide)).2
  rw [hnext', hprev] at hlink
  cases hlink

/-! ### Merging -/

theorem merged_of_meets (mem : Mem) (total_size base : Nat) (s₀ : State) (ops : List Op)
    (h32 : sizeofHeader < total_size) (hlt : total_size < 2 ^ 31) (hm : Mapped base total_size)
    (hinit : myAllocatorInit total_size (some base) (State.initial mem) = some s₀)
    (hC : Meets (step allocator permits) NoInnerSplit ⟨s₀, View.empty⟩ ops) :
    Throughout (step allocator permits) (fun σ => Merged σ.heap σ.view) ⟨s₀, View.empty⟩ ops :=
  throughout_of_meets (fun _ _ _ => RunInv.step)
    (fun _ ⟨_, h, hsize⟩ => h.merged (by rw [hsize]; exact h32)) (RunInv.init hlt hm hinit) hC

theorem merged_carveAndRelease : ∃ s₀,
    myAllocatorInit 512 (some 65536) (State.initial fun _ => 0) = some s₀ ∧
    Throughout (step allocator permits) (fun σ => Merged σ.heap σ.view) ⟨s₀, View.empty⟩
      carveAndRelease := by
  obtain ⟨s₀, hinit, -, -, hl⟩ := init_spec (s := State.initial fun _ => 0) rfl rfl mapped_512
  exact ⟨s₀, hinit, merged_of_meets _ 512 65536 s₀ _ (by decide) (by decide) mapped_512 hinit
    (meets_carveAndRelease hinit hl)⟩

/-- After the block behind the rest of the hole is released, it and the rest are free neighbours. -/
theorem not_merged_splitHole : Mapped 65536 512 ∧ ∃ s₀ σ,
    myAllocatorInit 512 (some 65536) (State.initial fun _ => 0) = some s₀ ∧
    run (step allocator permits) ⟨s₀, View.empty⟩ (splitHole ++ [.free 65728]) = some σ ∧
    ¬ Merged σ.heap σ.view := by
  have hfields : (after (splitHole ++ [.free 65728])).map (fun σ => (σ.heap.headerStart.next,
      next σ.heap.mem 65536, next σ.heap.mem 65600, size σ.heap.mem 65600, isFree σ.heap.mem 65600,
      isFree σ.heap.mem 65696)) = some (65536, 65600, 65696, 96, true, true) := by
    decide +kernel
  obtain ⟨s₀, σ, hinit, hr, hfields⟩ := exists_of_after hfields
  simp only [Prod.mk.injEq] at hfields
  obtain ⟨hhead, hnext, hnext', hsize, hfree, hfree'⟩ := hfields
  refine ⟨mapped_512, s₀, σ, hinit, hr, fun h => ?_⟩
  have hrest : OnList σ.heap 65600 := by
    rw [OnList, hhead]
    refine .there _ _ (by decide) ?_
    rw [hnext]
    exact .here _ (by decide)
  have hbehind : OnList σ.heap 65696 := by
    have := hrest.advance (by rw [hnext']; decide)
    rwa [hnext'] at this
  exact h.neighbours _ _ hrest hbehind (by rw [hsize]) ⟨hfree, hfree'⟩

end OsExercises.BestFit
