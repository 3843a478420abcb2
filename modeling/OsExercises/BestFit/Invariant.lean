import OsExercises.BestFit.Free
import OsExercises.BestFit.Malloc
import OsExercises.Lib.AllocatorClient

/-!
# The invariant of the best-fit allocator and its client

A client of the allocator keeps its contract (`permits`): it releases live pointers only and stores
into the bytes it asked for. A split of a block that has a successor leaves the successor's `prev`
pointing at the first part (`InnerSplit`). As long as no request causes one, the list stays linked
both ways and coalesced and its allocated blocks belong to the live pointers (`Inv.step`).
-/

namespace OsExercises.BestFit
open Client Tiling Transition

variable {s s' : State} {v : View} {l P Q : List Block} {a b c : Block} {n p : Nat}

def allocator : Allocator State where
  malloc := myMalloc
  free := myFree
  write a x s := { s with mem := s.mem.poke a x }

/-- Requests whose size does not wrap, the release of live pointers, stores into live payloads. -/
def permits (v : View) : Op → Bool
  | .malloc size => size + sizeofHeader < 2 ^ 64
  | .free p => p ∈ v.pointers
  | .write p off _ => v.live.any fun x => x.1 = p ∧ off < x.2

def OnList (s : State) (b : Nat) : Prop := OnChain (next s.mem) 0 s.headerStart.next b

/-- The first block that is free and long enough for `n` bytes has a successor and is long enough
to be split. -/
def InnerSplit (s : State) (n : Nat) : Prop :=
  n ≠ 0 ∧ ∃ l₁ b l₂, Chain (next s.mem) 0 s.headerStart.next (l₁ ++ b :: l₂) ∧ l₂ ≠ [] ∧
    (∀ a ∈ l₁, isFree s.mem a = true → size s.mem a < n + sizeofHeader) ∧ isFree s.mem b = true ∧
    n + sizeofHeader + sizeofHeader ≤ size s.mem b

def NoInnerSplit (σ : Session State) : Op → Prop
  | .malloc size => ¬ InnerSplit σ.heap size
  | _ => True

/-! ### The invariant -/

/-- The list `l` is linked both ways and coalesced, and its allocated blocks are those of the live
pointers. -/
structure Inv (s : State) (v : View) (l : List Block) : Prop where
  linked : Linked s l
  small : s.poolSize < 2 ^ 31
  coalesced : Coalesced l
  owned : ∀ x ∈ v.live, 0 < x.2 ∧ ∃ b ∈ l, b.free = false ∧ x.1 = b.addr + 32 ∧ x.2 + 32 ≤ b.size
  nodup : v.pointers.Nodup
  live : ∀ b ∈ l, b.free = false → b.addr + 32 ∈ v.pointers

namespace Inv

theorem forward (h : Inv s v l) : Forward s l := h.linked.toForward

theorem eq_of_addr (h : Inv s v l) (ha : a ∈ l) (hb : b ∈ l) (hab : a.addr = b.addr) : a = b := by
  have hpos := h.forward.size_pos
  exact h.forward.tiles.eq_of_addr (by rw [Forward.sizeofHeader_eq]; omega) ha hb hab

theorem start (h : Linked s [b]) (hsmall : s.poolSize < 2 ^ 31) (hb : b.free = true) :
    Inv s View.empty [b] := by
  refine ⟨h, hsmall, .singleton b, by simp [View.empty], by simp [View.empty, View.pointers], ?_⟩
  intro c hc hfree
  rw [List.mem_singleton.mp hc, hb] at hfree
  cases hfree

/-- The client's part of an allocation: `b` is replaced by `R`, which starts with its block. -/
theorem record {R : List Block} {m : Mem} (h : Inv s v (P ++ b :: Q)) (hb : b.free = true) (hn : 0 < n)
    (hlinked : Linked { s with mem := m } (P ++ (R ++ Q))) (hco : Coalesced (P ++ (R ++ Q)))
    (hR : ∃ c ∈ R, c.free = false ∧ c.addr = b.addr ∧ n + 32 ≤ c.size)
    (hR' : ∀ c ∈ R, c.free = false → c.addr = b.addr) :
    Inv { s with mem := m } (v.record n (b.addr + 32)) (P ++ (R ++ Q)) := by
  rw [View.record_of_ne v n (by omega)]
  refine ⟨hlinked, h.small, hco, ?_, ?_, ?_⟩
  · intro x hx
    rcases List.mem_cons.mp hx with rfl | hx
    · obtain ⟨c, hc, hfree, haddr, hsize⟩ := hR
      exact ⟨hn, c, by simp [hc], hfree, by rw [haddr], hsize⟩
    · obtain ⟨hpos, c, hc, hfree, haddr, hsize⟩ := h.owned x hx
      refine ⟨hpos, c, ?_, hfree, haddr, hsize⟩
      simp only [List.mem_append, List.mem_cons] at hc ⊢
      rcases hc with hc | rfl | hc
      · exact .inl hc
      · rw [hb] at hfree; cases hfree
      · exact .inr (.inr hc)
  · refine List.nodup_cons.mpr ⟨fun hp => ?_, h.nodup⟩
    obtain ⟨x, hx, hxp⟩ := List.mem_map.mp hp
    obtain ⟨-, c, hc, hfree, haddr, -⟩ := h.owned x hx
    have hcb : c = b := h.eq_of_addr hc (by simp) (by omega)
    rw [hcb, hb] at hfree
    cases hfree
  · intro c hc hfree
    simp only [List.mem_append] at hc
    rcases hc with hc | hc | hc
    · exact List.mem_cons_of_mem _ (h.live c (by simp [hc]) hfree)
    · rw [hR' c hc hfree]
      exact List.mem_cons_self
    · exact List.mem_cons_of_mem _ (h.live c (by simp [hc]) hfree)

theorem release {m : Mem} (h : Inv s v (P ++ b :: Q))
    (hlinked : Linked { s with mem := m } (Tiling.release P b Q)) :
    Inv { s with mem := m } (v.release (b.addr + 32)) (Tiling.release P b Q) := by
  have hco := List.isChain_append.mp h.coalesced
  refine ⟨hlinked, h.small, coalesced_release hco.1 hco.2.1.tail, ?_, ?_, ?_⟩
  · intro x hx
    obtain ⟨hx, hne⟩ := View.mem_release.mp hx
    obtain ⟨hpos, c, hc, hfree, haddr, hsize⟩ := h.owned x hx
    refine ⟨hpos, c, (mem_release hfree).mpr ?_, hfree, haddr, hsize⟩
    simp only [List.mem_append, List.mem_cons] at hc
    rcases hc with hc | rfl | hc
    · exact .inl hc
    · exact absurd haddr hne
    · exact .inr hc
  · exact (List.filter_sublist.map Prod.fst).nodup h.nodup
  · intro c hc hfree
    have hc := (mem_release hfree).mp hc
    have hmem : c ∈ P ++ b :: Q := by rcases hc with hc | hc <;> simp [hc]
    refine View.mem_pointers_release.mpr ⟨h.live c hmem hfree, fun heq => ?_⟩
    exact h.forward.ne_of_mem hc (h.eq_of_addr hmem (by simp) (by omega))

theorem whole_or_last (h : Inv s v (P ++ b :: Q)) (hn : n ≠ 0)
    (hP : ∀ c ∈ P, fits (n + 32) c = false) (hb : fits (n + 32) b = true) (hC : ¬ InnerSplit s n) :
    b.size < n + 32 + 32 ∨ Q = [] := by
  by_contra hnot
  obtain ⟨hge, hQ⟩ := not_or.mp hnot
  have hchain := h.forward.chain
  rw [List.map_append, List.map_cons] at hchain
  have hst := h.forward.stored b (by simp)
  refine hC ⟨hn, P.map Block.addr, b.addr, Q.map Block.addr, hchain, by simpa using hQ, ?_, ?_, ?_⟩
  · intro a ha hfree
    obtain ⟨c, hc, rfl⟩ := List.mem_map.mp ha
    have hstc := h.forward.stored c (by simp [hc])
    rw [hstc.free] at hfree
    rw [hstc.size, Forward.sizeofHeader_eq]
    by_contra hle
    have := hP c hc
    rw [fits_iff.mpr ⟨hfree, by omega⟩] at this
    cases this
  · rw [hst.free]
    exact (fits_iff.mp hb).1
  · rw [hst.size, Forward.sizeofHeader_eq]
    omega

theorem malloc (h : Inv s v l) (hn : n + 32 < 2 ^ 64) (hC : ¬ InnerSplit s n)
    (hm : myMalloc n s = some (s', p)) :
    ∃ l', Inv s' (v.record n p) l' ∧ s'.poolSize = s.poolSize := by
  rcases h.forward.malloc hn with ⟨-, hnull⟩ | ⟨hne, P, b, Q, rfl, hP, hb, hfound⟩
  · rw [hnull] at hm
    cases hm
    exact ⟨l, ⟨h.linked, h.small, h.coalesced, h.owned, h.nodup, h.live⟩, rfl⟩
  · rw [hfound] at hm
    cases hm
    have hfit := fits_iff.mp hb
    have hle := h.forward.size_le (b := b) (by simp)
    have hsmall := h.small
    have hlinked := h.linked.take (k := n + 32) (by omega) (by omega) (h.whole_or_last hne hP hb hC)
    refine ⟨_, h.record hfit.1 (Nat.pos_of_ne_zero hne) hlinked (h.coalesced.carve hfit.1) ?_ ?_, rfl⟩
    · unfold carve
      split
      · exact ⟨_, List.mem_singleton_self _, rfl, rfl, hfit.2⟩
      · exact ⟨_, List.mem_cons_self, rfl, rfl, Nat.le_refl _⟩
    · intro c hc hfree
      unfold carve at hc
      split at hc
      · rw [List.mem_singleton.mp hc]
      · rcases List.mem_pair.mp hc with rfl | rfl
        · rfl
        · cases hfree

theorem exists_block (h : Inv s v l) (hp : p ∈ v.pointers) :
    ∃ P b Q, l = P ++ b :: Q ∧ b.free = false ∧ p = b.addr + 32 ∧
      sizeAdd b.addr sizeofHeader = p := by
  obtain ⟨x, hx, rfl⟩ := List.mem_map.mp hp
  obtain ⟨hpos, b, hb, hfree, haddr, hsize⟩ := h.owned x hx
  have hbounds := h.forward.bounds hb
  have hfits := h.forward.pool_fits
  obtain ⟨P, Q, rfl⟩ := List.append_of_mem hb
  refine ⟨P, b, Q, rfl, hfree, haddr, ?_⟩
  rw [sizeAdd_header (by omega), haddr]

theorem free (h : Inv s v l) (hp : p ∈ v.pointers) :
    ∃ s' l', myFree p s = some s' ∧ Inv s' (v.release p) l' ∧ s'.poolSize = s.poolSize := by
  obtain ⟨P, b, Q, rfl, hfree, rfl, hptr⟩ := h.exists_block hp
  obtain ⟨m, hm, hlinked⟩ := h.linked.free hfree h.small
  rw [hptr] at hm
  exact ⟨_, _, hm, h.release hlinked, rfl⟩

theorem write {off : Nat} {x : UInt8} (h : Inv s v l) (hp : permits v (.write p off x) = true) :
    Inv { s with mem := s.mem.poke (p + off) x } v l := by
  obtain ⟨y, hy, hyp⟩ := List.any_eq_true.mp hp
  obtain ⟨rfl, hoff⟩ := of_decide_eq_true hyp
  obtain ⟨-, b, hb, -, haddr, hsize⟩ := h.owned y hy
  rw [haddr]
  exact ⟨h.linked.poke hb (by omega) x, h.small, h.coalesced, h.owned, h.nodup, h.live⟩

theorem step {σ σ' : Session State} {op : Op} (h : Inv σ.heap σ.view l) (hC : NoInnerSplit σ op)
    (hs : Client.step allocator permits σ op = some σ') :
    ∃ l', Inv σ'.heap σ'.view l' ∧ σ'.heap.poolSize = σ.heap.poolSize := by
  cases op with
  | malloc size =>
    obtain ⟨hp, s', p, hm, rfl⟩ := step_malloc_eq_some.mp hs
    exact h.malloc (of_decide_eq_true hp) hC hm
  | free p =>
    obtain ⟨hp, s', hf, rfl⟩ := step_free_eq_some.mp hs
    obtain ⟨s'', l', hs'', h'⟩ := h.free (of_decide_eq_true hp)
    obtain rfl : s'' = s' := Option.some.inj (hs''.symm.trans hf)
    exact ⟨l', h'⟩
  | write p off x =>
    obtain ⟨hp, rfl⟩ := step_write_eq_some.mp hs
    exact ⟨l, h.write hp, rfl⟩

/-- No permitted operation runs into an endless loop or a held mutex. -/
theorem progress {op : Op} (h : Inv s v l) (hp : permits v op = true) :
    ∃ σ, Client.step allocator permits ⟨s, v⟩ op = some σ := by
  cases op with
  | malloc size =>
    have hm : ∃ r, myMalloc size s = some r := by
      rcases h.forward.malloc (of_decide_eq_true hp) with ⟨-, hnull⟩ | ⟨-, P, b, Q, -, -, -, hfound⟩
      · exact ⟨_, hnull⟩
      · exact ⟨_, hfound⟩
    obtain ⟨⟨s', q⟩, hm⟩ := hm
    exact ⟨_, step_malloc_eq_some.mpr ⟨hp, s', q, hm, rfl⟩⟩
  | free p =>
    obtain ⟨s', l', hs', -, -⟩ := h.free (of_decide_eq_true hp)
    exact ⟨_, step_free_eq_some.mpr ⟨hp, s', hs', rfl⟩⟩
  | write p off x => exact ⟨_, step_write_eq_some.mpr ⟨hp, rfl⟩⟩

end Inv

end OsExercises.BestFit
