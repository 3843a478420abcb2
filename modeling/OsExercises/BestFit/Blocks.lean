import OsExercises.BestFit.Model
import OsExercises.Lib.Chain
import OsExercises.Lib.Tiling

/-!
# The block list in memory

`Forward s l`: the blocks `l` tile the pool, `next` leads from `header_start` through them to `NULL`
and their headers say what `l` says. `Linked s l`: also `prev` leads back through them. The two are
kept apart because `my_malloc` needs only the first, and does not always keep the second. Headers of
different blocks do not overlap (`Forward.header_apart`), so a store to one header leaves the other
blocks alone (`header_set_apart`).
-/

namespace OsExercises.BestFit
open Tiling

/-- The header of `b` in memory. -/
structure Stored (m : Mem) (b : Block) : Prop where
  free : isFree m b.addr = b.free
  size : size m b.addr = b.size

theorem Stored.congr {m m' : Mem} {b : Block} (h : Stored m b)
    (hs : header m' b.addr = header m b.addr) : Stored m' b :=
  ⟨(congrArg Header.isFree hs).trans h.free, (congrArg Header.size hs).trans h.size⟩

theorem Stored.of_header {m : Mem} {b : Block} {n p : Nat}
    (h : header m b.addr = ⟨b.free, b.size, n, p⟩) : Stored m b :=
  ⟨congrArg Header.isFree h, congrArg Header.size h⟩

/-- The pool is mapped, the mutex is free, and following `next` the list is `l`, a tiling of the
pool. A pool shorter than a header is a single block. -/
structure Forward (s : State) (l : List Block) : Prop where
  mutex : s.mutex = false
  pool_pos : 0 < s.pool
  size_pos : 0 < s.poolSize
  pool_fits : s.pool + s.poolSize ≤ 2 ^ 64
  span : span l = s.poolSize
  tiles : Tiles (min sizeofHeader s.poolSize) s.pool l
  path : Path (next s.mem) s.headerStart.next (l.map Block.addr) 0
  stored : ∀ b ∈ l, Stored s.mem b

/-- Following `prev` from the last of the blocks `l` leads back through them to `x`. -/
def Back (m : Mem) (l : List Block) (x : Nat) : Prop :=
  ∃ e, Path (prev m) e (l.map Block.addr).reverse x

/-- As `Forward`, and `prev` leads back to `NULL`. -/
structure Linked (s : State) (l : List Block) : Prop extends Forward s l where
  back : Back s.mem l 0

section Back

variable {m m' : Mem} {P Q l : List Block} {b : Block} {x : Nat}

theorem back_append_cons : Back m (P ++ b :: Q) x ↔
    Back m Q b.addr ∧ Path (prev m) (prev m b.addr) (P.map Block.addr).reverse x := by
  simp only [Back, List.map_append, List.map_cons, List.reverse_append, List.reverse_cons,
    List.append_assoc, List.singleton_append, path_append_cons, exists_and_right]

theorem back_cons : Back m (b :: Q) x ↔ Back m Q b.addr ∧ prev m b.addr = x :=
  back_append_cons (P := [])

theorem path_addrs_congr {link link' : Nat → Nat} {a : Nat}
    (h : Path link a (l.map Block.addr).reverse x) (hl : ∀ c ∈ l, link' c.addr = link c.addr) :
    Path link' a (l.map Block.addr).reverse x := by
  refine h.congr fun a ha => ?_
  obtain ⟨c, hc, rfl⟩ := List.mem_map.mp (List.mem_reverse.mp ha)
  exact hl c hc

theorem Back.congr (h : Back m l x) (hl : ∀ c ∈ l, prev m' c.addr = prev m c.addr) : Back m' l x :=
  let ⟨e, he⟩ := h
  ⟨e, path_addrs_congr he hl⟩

end Back

namespace Forward

variable {s : State} {m' : Mem} {l P Q R S : List Block} {a b c : Block}

theorem sizeofHeader_eq : sizeofHeader = 32 := rfl

theorem bounds (h : Forward s l) (hb : b ∈ l) :
    s.pool ≤ b.addr ∧ b.addr + b.size ≤ s.pool + s.poolSize := by
  have := h.tiles.bounds hb
  rw [h.span] at this
  omega

theorem addr_pos (h : Forward s l) (hb : b ∈ l) : 0 < b.addr :=
  Nat.lt_of_lt_of_le h.pool_pos (h.bounds hb).1

theorem addr_lt (h : Forward s l) (hb : b ∈ l) : b.addr < 2 ^ 64 := by
  have h1 := h.tiles.bounds hb
  have h2 := h.bounds hb
  have h3 := h.pool_fits
  have h4 := h.size_pos
  rw [sizeofHeader_eq] at h1
  omega

theorem size_le (h : Forward s l) (hb : b ∈ l) : b.size ≤ s.poolSize := by
  have := h.bounds hb
  omega

/-- A block with a neighbour is as long as a header. -/
theorem header_apart (h : Forward s l) (ha : a ∈ l) (hb : b ∈ l) (hne : a ≠ b) :
    a.addr + 32 ≤ b.addr ∨ b.addr + 32 ≤ a.addr := by
  have h1 := h.tiles.bounds ha
  have h2 := h.tiles.bounds hb
  have hpos := h.size_pos
  rw [h.span, sizeofHeader_eq] at h1 h2
  rcases h.tiles.apart ha hb hne with h3 | h3 <;> omega

theorem length_lt (h : Forward s l) : l.length < addressSpace := by
  have h1 := h.tiles.length_le (by have := h.size_pos; rw [sizeofHeader_eq]; omega)
  have h2 := h.pool_fits
  have h3 := h.pool_pos
  rw [h.span] at h1
  rw [addressSpace]
  omega

theorem ne_nil (h : Forward s l) : l ≠ [] := by
  rintro rfl
  exact absurd h.span (Nat.ne_of_lt h.size_pos)

theorem headerStart_eq (h : Forward s l) : s.headerStart.next = s.pool := by
  rcases l with _ | ⟨b, l⟩
  · exact absurd rfl h.ne_nil
  · rw [h.path.1, h.tiles.1]

theorem chain (h : Forward s l) : Chain (next s.mem) 0 s.headerStart.next (l.map Block.addr) := by
  refine ⟨h.path, fun h0 => ?_⟩
  obtain ⟨b, hb, hz⟩ := List.mem_map.mp h0
  have := h.addr_pos hb
  omega

theorem ne_of_mem (h : Forward s (P ++ b :: Q)) (hc : c ∈ P ∨ c ∈ Q) : c ≠ b := by
  rintro rfl
  have hp := h.tiles.pairwise
  have hsize := h.tiles.bounds (b := c) (by simp)
  have hpos := h.size_pos
  rw [List.pairwise_append, List.pairwise_cons] at hp
  rcases hc with hc | hc
  · have := hp.2.2 c hc c List.mem_cons_self
    rw [sizeofHeader_eq] at hsize; omega
  · have := hp.2.1.1 c hc
    rw [sizeofHeader_eq] at hsize; omega

theorem apart_of_mem (h : Forward s (P ++ b :: Q)) (hc : c ∈ P ∨ c ∈ Q) :
    b.addr + 32 ≤ c.addr ∨ c.addr + 32 ≤ b.addr := by
  have hmem : c ∈ P ++ b :: Q := by rcases hc with hc | hc <;> simp [hc]
  exact h.header_apart (by simp) hmem (h.ne_of_mem hc).symm

theorem header_poke (h : Forward s l) (hb : b ∈ l) {off : Nat} (hoff : off + 32 < b.size)
    (x : UInt8) (hc : c ∈ l) :
    header (s.mem.poke (b.addr + 32 + off) x) c.addr = header s.mem c.addr := by
  refine header_poke_apart ?_
  by_cases hbc : b = c
  · subst hbc; omega
  · have h1 := h.header_apart hb hc hbc
    rcases h.tiles.apart hb hc hbc with h2 | h2 <;> omega

theorem poke (h : Forward s l) (hb : b ∈ l) {off : Nat} (hoff : off + 32 < b.size) (x : UInt8) :
    Forward { s with mem := s.mem.poke (b.addr + 32 + off) x } l := by
  refine ⟨h.mutex, h.pool_pos, h.size_pos, h.pool_fits, h.span, h.tiles, h.path.congr ?_, fun c hc => ?_⟩
  · intro a ha
    obtain ⟨c, hc, rfl⟩ := List.mem_map.mp ha
    exact congrArg Header.next (h.header_poke hb hoff x hc)
  · exact (h.stored c hc).congr (h.header_poke hb hoff x hc)

theorem lock_eq (h : Forward s l) : s.lock = some { s with mutex := true } := by
  simp [State.lock, h.mutex]

theorem unlock_eq (h : Forward s l) (m : Mem) :
    ({ s with mem := m, mutex := true } : State).unlock = { s with mem := m } := by
  rw [State.unlock, h.mutex]

/-- The blocks `S` in the middle of the list are replaced by the blocks `R`. -/
theorem splice (h : Forward s (P ++ (S ++ Q))) (hspan : Tiling.span R = Tiling.span S)
    (htiles : Tiles (min sizeofHeader s.poolSize) s.pool (P ++ (R ++ Q)))
    (hpath : ∀ x y, Path (next s.mem) x (S.map Block.addr) y → Path (next m') x (R.map Block.addr) y)
    (hR : ∀ c ∈ R, Stored m' c)
    (hsame : ∀ c, c ∈ P ∨ c ∈ Q → Stored m' c ∧ next m' c.addr = next s.mem c.addr) :
    Forward { s with mem := m' } (P ++ (R ++ Q)) := by
  have hp := h.path
  simp only [List.map_append] at hp
  obtain ⟨x, hP, hx⟩ := path_append.mp hp
  obtain ⟨y, hS, hQ⟩ := path_append.mp hx
  refine ⟨h.mutex, h.pool_pos, h.size_pos, h.pool_fits, ?_, htiles, ?_, ?_⟩
  · rw [← h.span]
    simp only [span_append, hspan]
  · simp only [List.map_append]
    refine path_append.mpr ⟨x, hP.congr ?_,
      path_append.mpr ⟨y, hpath x y hS, hQ.congr ?_⟩⟩
    · intro d hd
      obtain ⟨c, hc, rfl⟩ := List.mem_map.mp hd
      exact (hsame c (.inl hc)).2
    · intro d hd
      obtain ⟨c, hc, rfl⟩ := List.mem_map.mp hd
      exact (hsame c (.inr hc)).2
  · intro c hc
    rcases List.mem_append.mp hc with hc | hc
    · exact (hsame c (.inl hc)).1
    · rcases List.mem_append.mp hc with hc | hc
      · exact hR c hc
      · exact (hsame c (.inr hc)).1

theorem reflag {v : Bool} (h : Forward s (P ++ b :: Q))
    (hheader : header m' b.addr = { header s.mem b.addr with isFree := v })
    (hframe : ∀ c, c ∈ P ∨ c ∈ Q → header m' c.addr = header s.mem c.addr) :
    Forward { s with mem := m' } (P ++ { b with free := v } :: Q) := by
  have htiles := h.tiles
  simp only [tiles_append, tiles_cons] at htiles
  refine splice (S := [b]) (R := [{ b with free := v }]) h rfl ?_ ?_ ?_ fun c hc => ?_
  · simp only [tiles_append, tiles_cons, List.cons_append, List.nil_append]
    exact htiles
  · rintro x y ⟨rfl, hy⟩
    exact ⟨rfl, (congrArg Header.next hheader).trans hy⟩
  · intro c hc
    rw [List.mem_singleton.mp hc]
    exact .of_header (hheader.trans (Header.ext rfl (h.stored b (by simp)).size rfl rfl))
  · exact ⟨(h.stored c (by rcases hc with hc | hc <;> simp [hc])).congr (hframe c hc),
      congrArg Header.next (hframe c hc)⟩

end Forward

theorem Linked.reflag {s : State} {m' : Mem} {P Q : List Block} {b : Block} {v : Bool}
    (h : Linked s (P ++ b :: Q))
    (hheader : header m' b.addr = { header s.mem b.addr with isFree := v })
    (hframe : ∀ c, c ∈ P ∨ c ∈ Q → header m' c.addr = header s.mem c.addr) :
    Linked { s with mem := m' } (P ++ { b with free := v } :: Q) := by
  obtain ⟨hQ, hP⟩ := back_append_cons.mp h.back
  refine ⟨h.toForward.reflag hheader hframe, back_append_cons.mpr ⟨?_, ?_⟩⟩
  · exact hQ.congr fun c hc => congrArg Header.prev (hframe c (.inr hc))
  · have hb : prev m' b.addr = prev s.mem b.addr := congrArg Header.prev hheader
    show Path (prev m') (prev m' b.addr) _ _
    rw [hb]
    exact path_addrs_congr hP fun c hc => congrArg Header.prev (hframe c (.inl hc))

theorem Linked.poke {s : State} {l : List Block} {b : Block} (h : Linked s l) (hb : b ∈ l) {off : Nat}
    (hoff : off + 32 < b.size) (x : UInt8) :
    Linked { s with mem := s.mem.poke (b.addr + 32 + off) x } l :=
  ⟨h.toForward.poke hb hoff x,
    h.back.congr fun _ hc => congrArg Header.prev (h.toForward.header_poke hb hoff x hc)⟩

/-! ### Initialisation -/

theorem header_wholePool {m : Mem} {total_size base : Nat} (h : total_size < 2 ^ 64) :
    header (wholePool total_size base m) base = ⟨true, total_size, 0, 0⟩ := by
  have h0 : 0 < 2 ^ 64 := Nat.two_pow_pos 64
  rw [wholePool, header_setIsFree, header_setSize h, header_setPrev h0, header_setNext h0]

/-- A mapped pool starts as one free block. -/
theorem init_spec {s : State} {total_size base : Nat} (hs : s.pool = 0) (hmutex : s.mutex = false)
    (hm : Mapped base total_size) :
    ∃ s₀, myAllocatorInit total_size (some base) s = some s₀ ∧ s₀.pool = base ∧
      s₀.poolSize = total_size ∧ Linked s₀ [⟨base, total_size, true⟩] := by
  have hfits := hm.fits
  have hpos := hm.base_pos
  have hlen := hm.len_pos
  rw [addressSpace] at hfits
  have hheader : header (wholePool total_size base s.mem) base = ⟨true, total_size, 0, 0⟩ :=
    header_wholePool (by omega)
  refine ⟨{ s with
    mem := wholePool total_size base s.mem
    pool := base
    poolSize := total_size
    headerStart := ⟨false, 0, base, 0⟩ }, ?_, rfl, rfl, ?_⟩
  · simp [myAllocatorInit, State.lock, hmutex, hs, State.unlock]
  · refine ⟨⟨hmutex, hpos, hlen, hfits, by simp, ?_, ?_, ?_⟩, base, ?_⟩
    · exact ⟨rfl, Nat.min_le_right _ _, trivial⟩
    · exact ⟨rfl, congrArg Header.next hheader⟩
    · intro b hb
      rw [List.mem_singleton.mp hb]
      exact .of_header hheader
    · exact ⟨rfl, congrArg Header.prev hheader⟩

end OsExercises.BestFit
