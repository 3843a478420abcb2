import OsExercises.BestFit.FirstFit

/-!
# A block that is released at once

`my_free` undoes `my_malloc`: every header of the list is as before the two calls and so is every
byte outside the block (`Linked.free_take`). This undoes an inner split as well: the `prev` it leaves
stale is right again once the rest is merged. So a client cannot tell from later answers that the
two calls were made (`roundTrip`).
-/

namespace OsExercises.BestFit
open Client Tiling Transition

variable {s s' : State} {m m' : Mem} {v : View} {l P Q : List Block} {b c : Block} {a e k n p : Nat}

/-! ### What is left alone -/

theorem set_apply (f : Field) {c x : Nat} (h : a < c ∨ c + 32 ≤ a) : set f m c x a = m a := by
  refine Mem.store_apply_of_notMem ?_
  cases f <;> simp only [Field.offset, Field.width] <;> omega

theorem takeBlock_apply {c : Nat} (hk : 32 ≤ k) (hle : k ≤ size m c) (hfits : c + size m c ≤ 2 ^ 64)
    (hk64 : k + 32 < 2 ^ 64) (h : a < c ∨ c + size m c ≤ a) : takeBlock m c k a = m a := by
  have hc : a < c ∨ c + 32 ≤ a := by omega
  by_cases hlt : size m c < k + 32
  · have htake : takeBlock m c k = setSize (setIsFree m c false) c (size m c) :=
      if_pos (by rw [sizeAdd_header hk64]; exact hlt)
    rw [htake]
    exact (set_apply _ hc).trans (set_apply _ hc)
  · have hrest : a < c + k ∨ c + k + 32 ≤ a := by omega
    rw [take_split_eq hk (by omega) hfits]
    unfold setSize setIsFree setPrev setNext
    rw [set_apply _ hc, set_apply _ hc, set_apply _ hrest, set_apply _ hrest, set_apply _ hrest,
      set_apply _ hrest, set_apply _ hc]

/-- The `prev` behind the run is stored as it was. -/
theorem joinBlocks_apply {c : Nat} {x : Int} (h64 : e < 2 ^ 64)
    (he : e = 0 ∨ (c + 32 ≤ e ∨ e + 32 ≤ c) ∧ prev m e = c) (h : a < c ∨ c + 32 ≤ a) :
    joinBlocks m c e x a = m a := by
  rw [join_eq h64]
  refine (set_apply _ h).trans ?_
  split
  · next h0 =>
    obtain ⟨hapart, hprev⟩ := he.resolve_left h0
    have hsame : get .prev (setNext m c e) e = c := (get_set_apart hapart).trans hprev
    have hback : set .prev (setNext m c e) e (get .prev (setNext m c e) e) = setNext m c e :=
      Mem.store_load ..
    rw [hsame] at hback
    rw [setPrev, hback]
    exact set_apply _ h
  · exact set_apply _ h

/-! ### The two calls -/

namespace Linked

theorem congr (h : Linked s l) (hheader : ∀ c ∈ l, header m c.addr = header s.mem c.addr) :
    Linked { s with mem := m } l := by
  refine ⟨⟨h.mutex, h.pool_pos, h.size_pos, h.pool_fits, h.span, h.tiles, h.path.congr ?_, ?_⟩, ?_⟩
  · intro a ha
    obtain ⟨c, hc, rfl⟩ := List.mem_map.mp ha
    exact congrArg Header.next (hheader c hc)
  · exact fun c hc => (h.stored c hc).congr (hheader c hc)
  · exact h.back.congr fun c hc => congrArg Header.prev (hheader c hc)

/-- The block behind `b`, if there is one. -/
theorem next_end (h : Linked s (P ++ b :: Q)) : next s.mem b.addr = 0 ∧ Q = [] ∨
    ∃ d Q', Q = d :: Q' ∧ next s.mem b.addr = d.addr ∧ prev s.mem d.addr = b.addr := by
  rcases Q with _ | ⟨d, Q⟩
  · exact .inl ⟨h.next_last, rfl⟩
  · exact .inr ⟨d, Q, rfl, h.next_append_cons, h.prev_append_cons⟩

/-- The block in front of `b`, if there is one. -/
theorem prev_end (h : Linked s (P ++ b :: Q)) : prev s.mem b.addr = 0 ∧ P = [] ∨
    ∃ d P', P = P' ++ [d] ∧ prev s.mem b.addr = d.addr := by
  rcases List.eq_nil_or_concat P with rfl | ⟨P, d, rfl⟩
  · exact .inl ⟨(back_cons.mp h.back).2, rfl⟩
  · rw [List.concat_eq_append, List.append_assoc] at h
    exact .inr ⟨d, P, List.concat_eq_append, h.prev_append_cons⟩

/-- What the merge reads of a block that has just been taken: its own part and, behind it, perhaps
a free rest, up to the old successor. -/
theorem run_take (h : Linked s (P ++ b :: Q)) (hk : 32 ≤ k) (hk64 : k + 32 < 2 ^ 64) :
    ∃ k' nx C, header (takeBlock s.mem b.addr k) b.addr = ⟨false, k', nx, prev s.mem b.addr⟩ ∧
      Path (next (takeBlock s.mem b.addr k)) nx (C.map Block.addr) (next s.mem b.addr) ∧
      (∀ c ∈ C, Stored (takeBlock s.mem b.addr k) c ∧ (b.addr + 32 ≤ c.addr ∧ c.free = true)) ∧
      k' + span C = b.size ∧ C.length ≤ 1 := by
  have hfits := h.pool_fits
  have hbounds := h.bounds (b := b) (by simp)
  have hst := h.stored b (by simp)
  have hsize := hst.size
  by_cases hlt : b.size < k + 32
  · have hheader := header_take_whole (m := s.mem) (c := b.addr) (by rw [hsize]; exact hlt) hk64
    refine ⟨b.size, next s.mem b.addr, [], ?_, rfl, by simp, by simp, by simp⟩
    rw [hheader]
    exact Header.ext rfl hsize rfl rfl
  · have hge' : k + 32 ≤ size s.mem b.addr := by omega
    have hfits' : b.addr + size s.mem b.addr ≤ 2 ^ 64 := by omega
    have hrest := header_take_split_rest hk hge' hfits'
    rw [hsize] at hrest
    refine ⟨k, b.addr + k, [⟨b.addr + k, b.size - k, true⟩], header_take_split hk hge' hfits', ?_, ?_, ?_, ?_⟩
    · exact ⟨rfl, congrArg Header.next hrest⟩
    · intro c hc
      rw [List.mem_singleton.mp hc]
      exact ⟨.of_header hrest, by show b.addr + 32 ≤ b.addr + k; omega, rfl⟩
    · simp only [span_cons, span_nil]; omega
    · simp

theorem take_apart (h : Linked s (P ++ b :: Q)) (hk : 32 ≤ k) (hk64 : k + 32 < 2 ^ 64)
    (hc : c ∈ P ∨ c ∈ Q) :
    header (takeBlock s.mem b.addr k) c.addr = header s.mem c.addr := by
  have hfits := h.pool_fits
  have hbounds := h.bounds (b := b) (by simp)
  have hsize := (h.stored b (by simp)).size
  have hmem : c ∈ P ++ b :: Q := by rcases hc with hc | hc <;> simp [hc]
  have h1 := h.apart_of_mem hc
  have h2 := h.tiles.apart (a := b) (by simp) hmem (h.ne_of_mem hc).symm
  by_cases hlt : b.size < k + 32
  · exact header_take_whole_apart (by rw [hsize]; exact hlt) hk64 h1
  · exact header_take_split_apart hk (by omega) (by omega) h1 (by omega)

/-- The neighbours of a free block stop both merge loops. -/
theorem isFree_ends (h : Linked s (P ++ b :: Q)) (hco : Coalesced (P ++ b :: Q)) (hb : b.free = true)
    (hsame : ∀ c, c ∈ P ∨ c ∈ Q → header m c.addr = header s.mem c.addr) :
    (next s.mem b.addr = 0 ∨ isFree m (next s.mem b.addr) = false) ∧
      (prev s.mem b.addr = 0 ∨ isFree m (prev s.mem b.addr) = false) := by
  constructor
  · rcases h.next_end with ⟨h0, -⟩ | ⟨d, Q', rfl, hd, -⟩
    · exact .inl h0
    · have hnot := (List.isChain_append_cons_cons.mp hco).2.1
      have hstored := (h.stored d (by simp)).congr (hsame d (.inr (by simp)))
      rw [hd, hstored.free]
      exact .inr (by simpa [hb] using hnot)
  · rcases h.prev_end with ⟨h0, -⟩ | ⟨d, P', rfl, hd⟩
    · exact .inl h0
    · rw [List.append_assoc] at hco
      have hnot := (List.isChain_append_cons_cons.mp hco).2.1
      have hstored := (h.stored d (by simp)).congr (hsame d (.inl (by simp)))
      rw [hd, hstored.free]
      exact .inr (by simpa [hb] using hnot)

/-- The merge stores over the block what it was and nothing else that counts. -/
theorem header_rejoin (h : Linked s (P ++ b :: Q)) (hb : b.free = true) {k' nx : Nat}
    (hheader : header m b.addr = ⟨true, k', nx, prev s.mem b.addr⟩)
    (hsame : ∀ c, c ∈ P ∨ c ∈ Q → header m c.addr = header s.mem c.addr) (hc : c ∈ P ++ b :: Q) :
    header (joinBlocks m b.addr (next s.mem b.addr) b.size) c.addr = header s.mem c.addr := by
  have h64 := next_lt s.mem b.addr
  have hst := h.stored b (by simp)
  have hsize : b.size < 2 ^ 64 := hst.size ▸ size_lt s.mem b.addr
  have hend : next s.mem b.addr = 0 ∨
      b.addr + 32 ≤ next s.mem b.addr ∨ next s.mem b.addr + 32 ≤ b.addr := by
    rcases h.next_end with ⟨h0, -⟩ | ⟨d, Q', rfl, hd, -⟩
    · exact .inl h0
    · rw [hd]
      exact .inr (h.apart_of_mem (.inr (by simp)))
  by_cases hcb : c = b
  · rw [hcb, header_join hend h64 hsize, hheader]
    exact Header.ext (hst.free.trans hb).symm hst.size.symm rfl rfl
  have hc : c ∈ P ∨ c ∈ Q := by simpa [hcb] using hc
  have hapart := h.apart_of_mem hc
  by_cases hce : c.addr = next s.mem b.addr
  · have hpos := h.addr_pos (b := c) (by rcases hc with hc | hc <;> simp [hc])
    have hlt := h.addr_lt (b := b) (by simp)
    rw [← hce, header_join_next hapart (by omega) (hce ▸ h64) hlt, hsame c hc]
    rcases h.next_end with ⟨h0, -⟩ | ⟨d, Q', rfl, hd, hprev⟩
    · omega
    · rw [← hd, ← hce] at hprev
      exact Header.ext rfl rfl rfl hprev.symm
  · rw [header_join_apart h64 hapart ?_, hsame c hc]
    rcases h.next_end with ⟨h0, -⟩ | ⟨d, Q', rfl, hd, -⟩
    · exact .inl h0
    · rw [hd]
      refine .inr (h.header_apart (by simp) (by rcases hc with hc | hc <;> simp [hc]) ?_)
      rintro rfl
      exact hce hd.symm

theorem free_take (h : Linked s (P ++ b :: Q)) (hco : Coalesced (P ++ b :: Q)) (hb : b.free = true)
    (hsmall : s.poolSize < 2 ^ 31) (hk : 32 ≤ k) (hle : k ≤ b.size) :
    ∃ m, myFree (sizeAdd b.addr sizeofHeader) { s with mem := takeBlock s.mem b.addr k } =
        some { s with mem := m } ∧
      (∀ c ∈ P ++ b :: Q, header m c.addr = header s.mem c.addr) ∧
      ∀ a, a < b.addr ∨ b.addr + b.size ≤ a → m a = s.mem a := by
  have hmem : b ∈ P ++ b :: Q := by simp
  have hbsize := h.size_le hmem
  have hbounds := h.bounds hmem
  have hfits := h.pool_fits
  have hst := h.stored b hmem
  obtain ⟨k', nx, C, hheader, hpath, hC, hspan, hlen⟩ := h.run_take hk (by omega)
  have hmark : header (setIsFree (takeBlock s.mem b.addr k) b.addr true) b.addr =
      ⟨true, k', nx, prev s.mem b.addr⟩ := by rw [header_setIsFree, hheader]
  generalize hm : setIsFree (takeBlock s.mem b.addr k) b.addr true = m at hmark
  have happly : ∀ c, b.addr + 32 ≤ c ∨ c + 32 ≤ b.addr →
      header m c = header (takeBlock s.mem b.addr k) c := fun c hc => by
    rw [← hm]
    exact header_set_apart hc
  have hsame : ∀ c, c ∈ P ∨ c ∈ Q → header m c.addr = header s.mem c.addr := fun c hc =>
    (happly _ (h.apart_of_mem hc)).trans (h.take_apart hk (by omega) hc)
  obtain ⟨hnext, hprev⟩ := h.isFree_ends hco hb hsame
  have hpath' : Path (next m) (next m b.addr) (C.map Block.addr) (next s.mem b.addr) := by
    have hnx : next m b.addr = nx := congrArg Header.next hmark
    rw [hnx]
    refine hpath.congr fun a ha => ?_
    obtain ⟨c, hc, rfl⟩ := List.mem_map.mp ha
    exact congrArg Header.next (happly _ (.inl (hC c hc).2.1))
  have hforth : absorb (next m) m b.addr (toInt k') =
      some ((C.map Block.addr).getLastD b.addr, toInt b.size) := by
    have hsum : ((k' : Int) + (span C : Nat)) = b.size := by omega
    rw [← hsum]
    refine absorb_spec C b.addr k' addressSpace hpath' (fun c hc => ?_) hnext
      (by unfold addressSpace; omega)
    obtain ⟨hstored, hlt, hfree⟩ := hC c hc
    exact ⟨hstored.congr (happly _ (.inl hlt)), by omega, hfree⟩
  have hback : absorb (prev m) m b.addr (toInt b.size) = some (b.addr, toInt b.size) :=
    absorb_spec [] b.addr b.size addressSpace (congrArg Header.prev hmark) (by simp) hprev
      (by unfold addressSpace; simp)
  have hint : toInt b.size = b.size := toInt_of_mem (by unfold INT_MIN; omega) (by unfold INT_MAX; omega)
  rw [hint] at hforth hback
  have hpool : s.pool ≠ 0 := Nat.ne_of_gt h.pool_pos
  have hptr : sizeSub (sizeAdd b.addr sizeofHeader) sizeofHeader = b.addr :=
    sizeSub_sizeAdd (h.addr_lt hmem)
  have htaken : isFree (takeBlock s.mem b.addr k) b.addr = false := congrArg Header.isFree hheader
  have hsize : size m b.addr = k' := congrArg Header.size hmark
  refine ⟨joinBlocks m b.addr (next s.mem b.addr) b.size, ?_, fun c hc => ?_, fun a ha => ?_⟩
  · simp only [myFree, State.lock, h.mutex, Bool.false_eq_true, if_false, Option.bind_eq_bind,
      Option.bind_some, hpool, hptr, htaken, hm, hsize, hforth, hback, hpath'.next_last,
      State.unlock]
  · exact h.header_rejoin hb hmark hsame hc
  · have hout : a < b.addr ∨ b.addr + 32 ≤ a := by omega
    rw [joinBlocks_apply (next_lt s.mem b.addr) ?_ hout, ← hm, setIsFree, set_apply _ hout]
    · refine takeBlock_apply hk ?_ ?_ (by omega) ?_ <;> rw [hst.size] <;> omega
    · rcases h.next_end with ⟨h0, -⟩ | ⟨d, Q', rfl, hd, hprev⟩
      · exact .inl h0
      · rw [hd]
        refine .inr ⟨h.apart_of_mem (.inr (by simp)), ?_⟩
        exact (congrArg Header.prev (hsame d (.inr (by simp)))).trans hprev

end Linked

/-! ### In a run -/

/-- `my_free(p)` in `s'` leads to the memory `m`, in which the list is that of `σ` and nothing
outside the block of `p` has changed. A client of `σ` is answered later on as if it had not made the
two calls. -/
structure GivesBack (σ : Session State) (s' : State) (p : Nat) (m : Mem) : Prop where
  free : myFree p s' = some { σ.heap with mem := m }
  headers : ∀ a, OnList σ.heap a → header m a = header σ.heap.mem a
  bytes : ∀ a, a < sizeSub p sizeofHeader ∨
    sizeSub p sizeofHeader + size σ.heap.mem (sizeSub p sizeofHeader) ≤ a → m a = σ.heap.mem a
  later : ∀ ops, Meets (step allocator permits) NoInnerSplit σ ops →
    (run (step allocator permits) ⟨{ σ.heap with mem := m }, σ.view⟩ ops).map Session.view =
      (run (step allocator permits) σ ops).map Session.view

theorem Inv.givesBack {σ : Session State} (h : Inv σ.heap σ.view l) (hn : n + 32 < 2 ^ 64)
    (hm : myMalloc n σ.heap = some (s', p)) (hp : p ≠ 0) : ∃ m, GivesBack σ s' p m := by
  rcases h.forward.malloc hn with ⟨-, hnull⟩ | ⟨hzero, P, b, Q, rfl, -, hb, hfound⟩
  · rw [hnull] at hm
    cases hm
    exact absurd rfl hp
  · rw [hfound] at hm
    cases hm
    obtain ⟨hfree, hle⟩ := fits_iff.mp hb
    have hmem : b ∈ P ++ b :: Q := by simp
    have hbounds := h.forward.bounds hmem
    have hfits := h.forward.pool_fits
    have hptr : sizeAdd b.addr sizeofHeader = b.addr + 32 := sizeAdd_header (by omega)
    have hblock : sizeSub (b.addr + 32) sizeofHeader = b.addr := by
      rw [← hptr]
      exact sizeSub_sizeAdd (h.forward.addr_lt hmem)
    obtain ⟨m, hm, hheader, hbytes⟩ := h.linked.free_take h.coalesced hfree h.small (k := n + 32)
      (by omega) hle
    rw [hptr] at hm
    have hinv : Inv { σ.heap with mem := m } σ.view (P ++ b :: Q) :=
      ⟨h.linked.congr hheader, h.small, h.coalesced, h.owned, h.nodup, h.live⟩
    refine ⟨m, hm, fun a ha => ?_, fun a ha => ?_, fun ops hC => run_rel_of_inv h hinv hC⟩
    · obtain ⟨c, hc, rfl⟩ := h.forward.onList_iff.mp ha
      exact hheader c hc
    · rw [hblock, (h.forward.stored b hmem).size] at ha
      exact hbytes a ha

theorem roundTrip (mem : Mem) (total_size base : Nat) (s₀ : State) (ops : List Op)
    (σ : Session State) (n : Nat) (s' : State) (p : Nat) (hlt : total_size < 2 ^ 31)
    (hm : Mapped base total_size)
    (hinit : myAllocatorInit total_size (some base) (State.initial mem) = some s₀)
    (hC : Meets (step allocator permits) NoInnerSplit ⟨s₀, View.empty⟩ ops)
    (hr : run (step allocator permits) ⟨s₀, View.empty⟩ ops = some σ)
    (hn : n + sizeofHeader < 2 ^ 64) (hmal : myMalloc n σ.heap = some (s', p)) (hp : p ≠ 0) :
    ∃ m, GivesBack σ s' p m := by
  obtain ⟨l, hinv, -⟩ := run_inv_of_meets (fun _ _ _ => RunInv.step) (RunInv.init hlt hm hinit) hC hr
  exact hinv.givesBack hn hmal hp

/-- The last request of `splitHole` is given back, though it has split the hole. -/
theorem roundTrip_splitHole : ∃ s₀ σ s',
    myAllocatorInit 512 (some 65536) (State.initial fun _ => 0) = some s₀ ∧
    run (step allocator permits) ⟨s₀, View.empty⟩ (splitHole.take 3) = some σ ∧
    InnerSplit σ.heap 32 ∧ myMalloc 32 σ.heap = some (s', 65568) ∧ ∃ m, GivesBack σ s' 65568 m := by
  obtain ⟨s₀, σ, hinit, hr, hinv⟩ := inv_leaveHole
  have hmal := hinv.forward.malloc_found (n := 32) (P := []) (by decide) (by decide) (by simp) (by decide)
  exact ⟨s₀, σ, _, hinit, hr, hinv.forward.innerSplit_iff.mpr (by decide), hmal,
    roundTrip _ 512 65536 s₀ (splitHole.take 3) σ 32 _ 65568 (by decide) mapped_512 hinit
      (meets_leaveHole hinit) hr (by decide) hmal (by decide)⟩

end OsExercises.BestFit
