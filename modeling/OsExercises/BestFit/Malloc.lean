import OsExercises.BestFit.Blocks

/-!
# What `my_malloc` does to the block list

The search stops at the first free block that is long enough (`search_spec`). Taking it replaces
the block by `carve` of it, and the list stays `Forward`. A split writes the links of the block and
of its new rest, and nothing else: the successor of the block keeps `prev` pointing at the block.
So the list stays `Linked` if the block is not split or has no successor (`Linked.take`), and
otherwise it does not (`Linked.not_doublyLinked_of_split`).
-/

namespace OsExercises.BestFit
open Tiling

variable {s : State} {m m' : Mem} {l P Q R S : List Block} {a b c : Block} {k n x : Nat}

/-! ### The search -/

theorem suits_eq (h : Stored m b) : suits m k b.addr = fits k b := by
  rw [suits, fits, h.free, h.size]

/-- The search passes the blocks `P`, none of which fits, and stops at `x`. -/
theorem search_spec {a : Nat} (hpath : Path (next m) a (P.map Block.addr) x)
    (hP : ∀ c ∈ P, Stored m c ∧ 0 < c.addr ∧ fits k c = false) (hx : x = 0 ∨ suits m k x = true)
    (hlen : P.length < addressSpace) : search m k a = some x := by
  refine whileLoop_of_path hpath (fun d hd => ?_) hx (by rwa [List.length_map])
  obtain ⟨c, hc, rfl⟩ := List.mem_map.mp hd
  obtain ⟨hst, hpos, hno⟩ := hP c hc
  exact ⟨Nat.ne_of_gt hpos, (suits_eq hst).trans hno⟩

namespace Forward

theorem search_found (h : Forward s (P ++ b :: Q)) (hP : ∀ c ∈ P, fits k c = false)
    (hb : fits k b = true) : search s.mem k s.headerStart.next = some b.addr := by
  have hlen := h.length_lt
  rw [List.length_append] at hlen
  have hpath := h.path
  rw [List.map_append] at hpath
  refine search_spec (path_append_cons.mp hpath).1 (fun c hc => ?_) (.inr ?_) (by omega)
  · exact ⟨h.stored c (by simp [hc]), h.addr_pos (by simp [hc]), hP c hc⟩
  · rw [suits_eq (h.stored b (by simp)), hb]

theorem search_none (h : Forward s l) (hl : ∀ c ∈ l, fits k c = false) :
    search s.mem k s.headerStart.next = some 0 :=
  search_spec h.path (fun c hc => ⟨h.stored c hc, h.addr_pos hc, hl c hc⟩) (.inl rfl) h.length_lt

end Forward

/-! ### The stores -/

theorem split_eq {c : Nat} (hk : 32 ≤ k) (hsize : k ≤ size m c) (hfits : c + k < 2 ^ 64) :
    split m c k = setSize (setIsFree (setPrev (setNext (setNext m c (c + k)) (c + k) (next m c))
      (c + k) c) (c + k) true) (c + k) (size m c - k) := by
  have hapart : c + k + 32 ≤ c ∨ c + 32 ≤ c + k := by omega
  have hheader : header (setNext m c (c + k)) c = { header m c with next := c + k } :=
    header_setNext hfits
  have hnext : next (setNext m c (c + k)) c = c + k := congrArg Header.next hheader
  have hframe : ∀ f m' v, header (set f m' (c + k) v) c = header m' c := fun _ _ _ =>
    header_set_apart hapart
  have hnext₁ : ∀ m' v, next (setNext m' (c + k) v) c = next m' c := fun m' v =>
    congrArg Header.next (hframe .next m' v)
  have hnext₂ : ∀ m' v, next (setPrev m' (c + k) v) c = next m' c := fun m' v =>
    congrArg Header.next (hframe .prev m' v)
  have hnext₃ : ∀ m' v, next (setIsFree m' (c + k) v) c = next m' c := fun m' v =>
    congrArg Header.next (hframe .isFree m' v.toNat)
  have hsize' : size (setIsFree (setPrev (setNext (setNext m c (c + k)) (c + k) (next m c))
      (c + k) c) (c + k) true) c = size m c := by
    refine congrArg Header.size (?_ : header _ c = { header m c with next := c + k })
    exact (hframe ..).trans ((hframe ..).trans ((hframe ..).trans hheader))
  simp only [split, sizeAdd_of_lt hfits, hnext, hnext₁, hnext₂, hnext₃, hsize',
    sizeSub_of_le hsize (size_lt m c)]

theorem header_take_whole {c : Nat} (hlt : size m c < k + 32) (hk : k + 32 < 2 ^ 64) :
    header (takeBlock m c k) c = { header m c with isFree := false } := by
  have htake : takeBlock m c k = setSize (setIsFree m c false) c (size m c) :=
    if_pos (by rw [sizeAdd_header hk]; exact hlt)
  rw [htake, header_setSize (size_lt m c), header_setIsFree]
  rfl

theorem header_take_whole_apart {c d : Nat} (hlt : size m c < k + 32) (hk : k + 32 < 2 ^ 64)
    (hd : c + 32 ≤ d ∨ d + 32 ≤ c) : header (takeBlock m c k) d = header m d := by
  have htake : takeBlock m c k = setSize (setIsFree m c false) c (size m c) :=
    if_pos (by rw [sizeAdd_header hk]; exact hlt)
  rw [htake]
  exact (header_set_apart hd).trans (header_set_apart hd)

section Split

variable {c d : Nat} (hk : 32 ≤ k) (hsize : k + 32 ≤ size m c) (hfits : c + size m c ≤ 2 ^ 64)
include hk hsize hfits

theorem take_split_eq : takeBlock m c k = setSize (setIsFree (setSize (setIsFree (setPrev (setNext
    (setNext m c (c + k)) (c + k) (next m c)) (c + k) c) (c + k) true) (c + k) (size m c - k))
    c false) c k := by
  have hlt := size_lt m c
  rw [← split_eq hk (by omega) (by omega)]
  exact if_neg (by rw [sizeAdd_header (by omega)]; omega)

theorem header_take_split : header (takeBlock m c k) c = ⟨false, k, c + k, prev m c⟩ := by
  have hapart : c + k + 32 ≤ c ∨ c + 32 ≤ c + k := by omega
  have hframe : ∀ f m' v, header (set f m' (c + k) v) c = header m' c := fun _ _ _ =>
    header_set_apart hapart
  have hlt := size_lt m c
  rw [take_split_eq hk hsize hfits, header_setSize (by omega), header_setIsFree]
  unfold setSize setIsFree setPrev
  rw [hframe, hframe, hframe]
  unfold setNext
  rw [hframe]
  have hnext : header (setNext m c (c + k)) c = { header m c with next := c + k } :=
    header_setNext (by omega)
  unfold setNext at hnext
  rw [hnext]
  rfl

theorem header_take_split_rest :
    header (takeBlock m c k) (c + k) = ⟨true, size m c - k, next m c, c⟩ := by
  have hapart : c + 32 ≤ c + k ∨ c + k + 32 ≤ c := by omega
  have hlt := size_lt m c
  rw [take_split_eq hk hsize hfits]
  refine (header_set_apart hapart).trans ((header_set_apart hapart).trans ?_)
  rw [header_setSize (by omega), header_setIsFree, header_setPrev (by omega),
    header_setNext (next_lt m c)]

theorem header_take_split_apart (hd : c + 32 ≤ d ∨ d + 32 ≤ c)
    (hd' : c + k + 32 ≤ d ∨ d + 32 ≤ c + k) : header (takeBlock m c k) d = header m d := by
  rw [take_split_eq hk hsize hfits]
  unfold setSize setIsFree setPrev setNext
  rw [header_set_apart hd, header_set_apart hd, header_set_apart hd', header_set_apart hd',
    header_set_apart hd', header_set_apart hd', header_set_apart hd]

end Split

/-! ### The list after the allocation -/

namespace Forward

theorem size_stored (h : Forward s l) (hb : b ∈ l) : size s.mem b.addr = b.size := (h.stored b hb).size

theorem take_split (h : Forward s (P ++ b :: Q)) (hk : 32 ≤ k) (hge : k + 32 ≤ b.size) :
    Forward { s with mem := takeBlock s.mem b.addr k }
      (P ++ (⟨b.addr, k, false⟩ :: ⟨b.addr + k, b.size - k, true⟩ :: Q)) := by
  have hbounds := h.bounds (b := b) (by simp)
  have hfits := h.pool_fits
  have hsize := h.size_stored (b := b) (by simp)
  have hge' : k + 32 ≤ size s.mem b.addr := by rw [hsize]; exact hge
  have hfits' : b.addr + size s.mem b.addr ≤ 2 ^ 64 := by rw [hsize]; omega
  have hheader := header_take_split hk hge' hfits'
  have hrest := header_take_split_rest hk hge' hfits'
  have hcarve : carve sizeofHeader k b = [⟨b.addr, k, false⟩, ⟨b.addr + k, b.size - k, true⟩] :=
    if_neg (by rw [sizeofHeader_eq]; omega)
  refine splice (S := [b]) (R := [⟨b.addr, k, false⟩, ⟨b.addr + k, b.size - k, true⟩]) h ?_ ?_ ?_ ?_
    fun c hc => ?_
  · rw [← hcarve, span_carve (by omega)]
    rfl
  · rw [← hcarve]
    have := sizeofHeader_eq
    exact tiles_carve (by omega) (by omega) (by omega) h.tiles
  · rintro x y ⟨rfl, hy⟩
    refine ⟨rfl, congrArg Header.next hheader, ?_⟩
    exact (congrArg Header.next hrest).trans hy
  · intro c hc
    rcases List.mem_pair.mp hc with rfl | rfl
    · exact .of_header hheader
    · rw [hsize] at hrest
      exact .of_header hrest
  · have hmem : c ∈ P ++ b :: Q := by rcases hc with hc | hc <;> simp [hc]
    have h1 := h.apart_of_mem hc
    have h2 := h.tiles.apart (a := b) (by simp) hmem (h.ne_of_mem hc).symm
    have hframe := header_take_split_apart (d := c.addr) hk hge' hfits' h1 (by omega)
    exact ⟨(h.stored c hmem).congr hframe, congrArg Header.next hframe⟩

theorem take (h : Forward s (P ++ b :: Q)) (hk : 32 ≤ k) (hk64 : k + 32 < 2 ^ 64) :
    Forward { s with mem := takeBlock s.mem b.addr k } (P ++ (carve sizeofHeader k b ++ Q)) := by
  have hsize := h.size_stored (b := b) (by simp)
  by_cases hlt : b.size < k + 32
  · rw [show carve sizeofHeader k b = [{ b with free := false }] from if_pos hlt]
    have hlt' : size s.mem b.addr < k + 32 := by rw [hsize]; exact hlt
    exact h.reflag (header_take_whole hlt' hk64) fun c hc =>
      header_take_whole_apart hlt' hk64 (h.apart_of_mem hc)
  · rw [show carve sizeofHeader k b = [⟨b.addr, k, false⟩, ⟨b.addr + k, b.size - k, true⟩] from if_neg hlt]
    exact h.take_split hk (by omega)

theorem malloc_zero (h : Forward s l) : myMalloc 0 s = some (s, 0) := by
  simp only [myMalloc, h.lock_eq, Option.bind_eq_bind, Option.bind_some, or_true, if_true]
  exact congrArg (fun s => some (s, 0)) (h.unlock_eq s.mem)

theorem malloc_null (h : Forward s l) (hn : n + 32 < 2 ^ 64) (hl : ∀ c ∈ l, fits (n + 32) c = false) :
    myMalloc n s = some (s, 0) := by
  by_cases hzero : n = 0
  · rw [hzero]; exact h.malloc_zero
  have hpool : s.pool ≠ 0 := Nat.ne_of_gt h.pool_pos
  have hhead : s.headerStart.next ≠ 0 := by rw [h.headerStart_eq]; exact hpool
  simp only [myMalloc, h.lock_eq, Option.bind_eq_bind, Option.bind_some, hpool, hzero, or_self, if_false,
    hhead, sizeAdd_header hn, h.search_none hl, if_true]
  exact congrArg (fun s => some (s, 0)) (h.unlock_eq s.mem)

theorem malloc_found (h : Forward s (P ++ b :: Q)) (hn : n + 32 < 2 ^ 64) (hzero : n ≠ 0)
    (hP : ∀ c ∈ P, fits (n + 32) c = false) (hb : fits (n + 32) b = true) :
    myMalloc n s = some ({ s with mem := takeBlock s.mem b.addr (n + 32) }, b.addr + 32) := by
  have hbounds := h.bounds (b := b) (by simp)
  have hfits := h.pool_fits
  have hsize := (fits_iff.mp hb).2
  have hpool : s.pool ≠ 0 := Nat.ne_of_gt h.pool_pos
  have hhead : s.headerStart.next ≠ 0 := by rw [h.headerStart_eq]; exact hpool
  have haddr : b.addr ≠ 0 := Nat.ne_of_gt (h.addr_pos (by simp))
  have hptr : sizeAdd b.addr sizeofHeader = b.addr + 32 := sizeAdd_header (by omega)
  simp only [myMalloc, h.lock_eq, Option.bind_eq_bind, Option.bind_some, hpool, hzero, or_self, if_false,
    hhead, sizeAdd_header hn, h.search_found hP hb, haddr, hptr]
  exact congrArg (fun s => some (s, b.addr + 32)) (h.unlock_eq _)

theorem malloc (h : Forward s l) (hn : n + 32 < 2 ^ 64) :
    ((n = 0 ∨ ∀ c ∈ l, fits (n + 32) c = false) ∧ myMalloc n s = some (s, 0)) ∨
    n ≠ 0 ∧ ∃ P b Q, l = P ++ b :: Q ∧ (∀ c ∈ P, fits (n + 32) c = false) ∧ fits (n + 32) b = true ∧
      myMalloc n s = some ({ s with mem := takeBlock s.mem b.addr (n + 32) }, b.addr + 32) := by
  by_cases hzero : n = 0
  · subst hzero
    exact .inl ⟨.inl rfl, h.malloc_zero⟩
  rcases first_fit (n + 32) l with hno | ⟨P, b, Q, rfl, hP, hb⟩
  · exact .inl ⟨.inr hno, h.malloc_null hn hno⟩
  · exact .inr ⟨hzero, P, b, Q, rfl, hP, hb, h.malloc_found hn hzero hP hb⟩

end Forward

namespace Linked

theorem take (h : Linked s (P ++ b :: Q)) (hk : 32 ≤ k) (hk64 : k + 32 < 2 ^ 64)
    (hok : b.size < k + 32 ∨ Q = []) :
    Linked { s with mem := takeBlock s.mem b.addr k } (P ++ (carve sizeofHeader k b ++ Q)) := by
  have hsize := h.size_stored (b := b) (by simp)
  obtain ⟨hQ, hP⟩ := back_append_cons.mp h.back
  by_cases hlt : b.size < k + 32
  · rw [show carve sizeofHeader k b = [{ b with free := false }] from if_pos hlt]
    have hlt' : size s.mem b.addr < k + 32 := by rw [hsize]; exact hlt
    exact h.reflag (header_take_whole hlt' hk64) fun c hc =>
      header_take_whole_apart hlt' hk64 (h.apart_of_mem hc)
  · obtain rfl : Q = [] := hok.resolve_left hlt
    rw [show carve sizeofHeader k b = [⟨b.addr, k, false⟩, ⟨b.addr + k, b.size - k, true⟩] from if_neg hlt]
    have hbounds := h.bounds (b := b) (by simp)
    have hfits := h.pool_fits
    have hge' : k + 32 ≤ size s.mem b.addr := by rw [hsize]; omega
    have hfits' : b.addr + size s.mem b.addr ≤ 2 ^ 64 := by rw [hsize]; omega
    refine ⟨h.toForward.take_split hk (by omega), back_append_cons.mpr ⟨back_cons.mpr ⟨?_, ?_⟩, ?_⟩⟩
    · exact ⟨b.addr + k, rfl⟩
    · exact congrArg Header.prev (header_take_split_rest hk hge' hfits')
    · have hb : prev (takeBlock s.mem b.addr k) b.addr = prev s.mem b.addr :=
        congrArg Header.prev (header_take_split hk hge' hfits')
      show Path _ (prev (takeBlock s.mem b.addr k) b.addr) _ _
      rw [hb]
      refine path_addrs_congr hP fun c hc => ?_
      have h1 := h.apart_of_mem (.inl hc)
      have h2 := (List.pairwise_append.mp h.tiles.pairwise).2.2 c hc b List.mem_cons_self
      exact congrArg Header.prev (header_take_split_apart hk hge' hfits' h1 (by omega))

end Linked

end OsExercises.BestFit
