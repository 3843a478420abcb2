import OsExercises.BestFit.FirstFit
import OsExercises.BestFit.Requests

/-!
# What one call does to a sound list

`my_malloc` on a list that tiles the pool (`malloc_spec`) and `my_free` on one that is linked both
ways (`free_spec`): which blocks are replaced by which, and that the others stay. The sizes merged
by `my_free` are added up in an `int`, so in a pool of `2 ^ 31` bytes or more the merged block may
be stored with another size (`conservesBytes_iff`).
-/

namespace OsExercises.BestFit
open Client Tiling Transition

variable {s s' : State} {m : Mem} {P Q l : List Block} {b : Block} {k n : Nat}

/-! ### Release -/

/-- The block that `b` becomes when it is released between `P` and `Q`. -/
def mergedRun (P : List Block) (b : Block) (Q : List Block) : Block :=
  merged (P.rtakeWhile Block.free) b (Q.takeWhile Block.free)

/-- `my_free` of the payload of `b` stores the sum of the sizes it merges, and the sizes on the list
add up to `pool_size`. -/
def ConservesBytes (s : State) (P : List Block) (b : Block) (Q : List Block) : Prop :=
  ∃ s', myFree (sizeAdd b.addr sizeofHeader) s = some s' ∧
    size s'.mem (mergedRun P b Q).addr = (mergedRun P b Q).size ∧
    ∃ l, Chain (next s'.mem) 0 s'.headerStart.next l ∧ (l.map (size s'.mem)).sum = s'.poolSize

theorem size_joinBlocks (m : Mem) (a e : Nat) (x : Int) : size (joinBlocks m a e x) a = toSize x :=
  size_setSize _ _ (toSize_lt x)

theorem joinBlocks_congr {x y : Int} (h : toSize x = toSize y) (m : Mem) (a e : Nat) :
    joinBlocks m a e x = joinBlocks m a e y := by
  simp only [joinBlocks, h]

/-- The sum is exact if and only if its 33 high bits are all the same. -/
theorem conservesBytes_iff (s : State) (P Q : List Block) (b : Block) (h : Linked s (P ++ b :: Q))
    (hb : b.free = false) : ConservesBytes s P b Q ↔
      (mergedRun P b Q).size < 2 ^ 31 ∨ 2 ^ 64 - 2 ^ 31 ≤ (mergedRun P b Q).size := by
  have hspan := h.span
  have hfits := h.pool_fits
  have hpos := h.pool_pos
  rw [release_split] at h hspan
  simp only [span_append, span_cons] at hspan
  obtain ⟨e, hfree, hjoin⟩ := h.free_eq hb (fun c hc => List.mem_rtakeWhile_imp hc)
    (fun c hc => List.mem_takeWhile_imp hc) not_free_of_rdropWhile not_free_of_dropWhile
  unfold ConservesBytes mergedRun
  have hlt : (merged (P.rtakeWhile Block.free) b (Q.takeWhile Block.free)).size < 2 ^ 64 := by
    simp only [merged]; omega
  rw [← toSize_toInt hlt]
  constructor
  · rintro ⟨s', hs', hsize, -⟩
    obtain rfl := Option.some.inj (hfree.symm.trans hs')
    exact (size_joinBlocks ..).symm.trans hsize
  · intro hsum
    rw [← joinBlocks_congr (hsum.trans (toSize_natCast hlt).symm)] at hjoin
    exact ⟨_, hfree, (size_joinBlocks ..).trans hsum, hjoin.sizes⟩

/-- The block between two free ones is released. -/
theorem conservesBytes_between : ∃ s₀ σ,
    myAllocatorInit 512 (some 65536) (State.initial fun _ => 0) = some s₀ ∧
    run (step allocator permits) ⟨s₀, View.empty⟩ leaveHole = some σ ∧
    ConservesBytes σ.heap [⟨65536, 160, true⟩] ⟨65696, 64, false⟩ [⟨65760, 288, true⟩] := by
  obtain ⟨s₀, σ, hinit, hr, hinv⟩ := inv_leaveHole
  exact ⟨s₀, σ, hinit, hr, (conservesBytes_iff σ.heap _ _ _ hinv.linked rfl).mpr (.inl (by decide))⟩

/-- A pool of `2 ^ 31` bytes is handed out whole and released; the sum `2 ^ 31` becomes the `int`
`-2 ^ 31`, which is stored as the size `2 ^ 64 - 2 ^ 31`. -/
theorem not_conservesBytes_whole : Mapped 65536 (2 ^ 31) ∧ ∃ s₀ s,
    myAllocatorInit (2 ^ 31) (some 65536) (State.initial fun _ => 0) = some s₀ ∧
    myMalloc (2 ^ 31 - 32) s₀ = some (s, 65568) ∧ Linked s ([] ++ ⟨65536, 2 ^ 31, false⟩ :: []) ∧
    ¬ ConservesBytes s [] ⟨65536, 2 ^ 31, false⟩ [] := by
  have hmapped : Mapped 65536 (2 ^ 31) := by decide
  obtain ⟨s₀, hinit, hpool, hsize, hl⟩ := init_spec (s := State.initial fun _ => 0) rfl rfl hmapped
  have hm := hl.malloc_found (n := 2 ^ 31 - 32) (P := []) (by decide) (by decide) (by simp) (by decide)
  have htake := hl.take (k := 2 ^ 31) (P := []) (by decide) (by decide) (.inr rfl)
  refine ⟨hmapped, s₀, _, hinit, hm, htake, ?_⟩
  rintro ⟨s', hs', hstored, -⟩
  obtain ⟨e, hfree, -⟩ := Linked.free_eq (P := []) (A := []) (C := []) htake rfl (by simp) (by simp)
    (by simp) (by simp)
  obtain rfl := Option.some.inj (hfree.symm.trans hs')
  have hwrong := (size_joinBlocks ..).symm.trans hstored
  exact absurd hwrong (by decide)

/-- `my_free` of the payload of `b` makes one free block of the maximal run `A`, `b`, `C`. -/
theorem free_spec (s : State) (P Q : List Block) (b : Block) (h : Linked s (P ++ b :: Q))
    (hb : b.free = false) (hsmall : s.poolSize < 2 ^ 31) :
    ∃ L A C R m, P = L ++ A ∧ Q = C ++ R ∧ (∀ c ∈ A, c.free = true) ∧ (∀ c ∈ C, c.free = true) ∧
      (∀ c ∈ L.getLast?, c.free = false) ∧ (∀ c ∈ R.head?, c.free = false) ∧
      myFree (sizeAdd b.addr sizeofHeader) s = some { s with mem := m } ∧
      Linked { s with mem := m }
        (L ++ ⟨(A.headD b).addr, span A + b.size + span C, true⟩ :: R) := by
  obtain ⟨m, hfree, hlinked⟩ := h.free hb hsmall
  refine ⟨P.rdropWhile Block.free, P.rtakeWhile Block.free, Q.takeWhile Block.free,
    Q.dropWhile Block.free, m, ?_, ?_, ?_, ?_, not_free_of_rdropWhile, not_free_of_dropWhile, hfree,
    hlinked⟩
  · exact List.rdropWhile_append_rtakeWhile.symm
  · exact List.takeWhile_append_dropWhile.symm
  · exact fun c hc => List.mem_rtakeWhile_imp hc
  · exact fun c hc => List.mem_takeWhile_imp hc

theorem free_spec_between : ∃ s₀ σ,
    myAllocatorInit 512 (some 65536) (State.initial fun _ => 0) = some s₀ ∧
    run (step allocator permits) ⟨s₀, View.empty⟩ leaveHole = some σ ∧
    ∃ L A C R m, [⟨65536, 160, true⟩] = L ++ A ∧ [⟨65760, 288, true⟩] = C ++ R ∧
      (∀ c ∈ A, c.free = true) ∧ (∀ c ∈ C, c.free = true) ∧
      (∀ c ∈ L.getLast?, c.free = false) ∧ (∀ c ∈ R.head?, c.free = false) ∧
      myFree (sizeAdd 65696 sizeofHeader) σ.heap = some { σ.heap with mem := m } ∧
      Linked { σ.heap with mem := m }
        (L ++ ⟨(A.headD ⟨65696, 64, false⟩).addr, span A + 64 + span C, true⟩ :: R) := by
  obtain ⟨s₀, σ, hinit, hr, hinv⟩ := inv_leaveHole
  exact ⟨s₀, σ, hinit, hr, free_spec σ.heap _ _ ⟨65696, 64, false⟩ hinv.linked rfl hinv.small⟩

/-! ### Allocation -/

/-- `my_malloc(n)` refuses if and only if `n` is 0 or no block fits. Otherwise it replaces a free block
by an allocated one and, if bytes are left over, a free rest. -/
theorem malloc_spec (s : State) (l : List Block) (n : Nat) (h : Forward s l) (hpage : PageAligned s.pool)
    (hn : n + sizeofHeader < 2 ^ 64) :
    ((n = 0 ∨ ∀ b ∈ l, b.free = true → b.size < n + sizeofHeader) → myMalloc n s = some (s, 0)) ∧
    (¬ (n = 0 ∨ ∀ b ∈ l, b.free = true → b.size < n + sizeofHeader) →
      ∃ P b Q m k rest, l = P ++ b :: Q ∧ b.free = true ∧
        myMalloc n s = some ({ s with mem := m }, b.addr + sizeofHeader) ∧
        n + sizeofHeader ≤ k ∧ k + span rest = b.size ∧
        (rest = [] ∨ ∃ r, rest = [r] ∧ r.free = true ∧ sizeofHeader ≤ r.size) ∧
        Forward { s with mem := m } (P ++ ⟨b.addr, k, false⟩ :: (rest ++ Q))) := by
  rw [Forward.sizeofHeader_eq] at *
  have hno : (∀ b ∈ l, b.free = true → b.size < n + 32) ↔ ∀ b ∈ l, fits (n + 32) b = false := by
    refine forall₂_congr fun b _ => ?_
    rw [← Bool.not_eq_true, fits_iff]
    constructor
    · rintro hlt ⟨hfree, hle⟩; have := hlt hfree; omega
    · intro hnot hfree; by_contra hge; exact hnot ⟨hfree, by omega⟩
  rw [hno]
  rcases h.malloc hn with ⟨hnull, heq⟩ | ⟨hzero, P, b, Q, rfl, -, hb, heq⟩
  · exact ⟨fun _ => heq, fun hnot => absurd hnull hnot⟩
  obtain ⟨hfree, hle⟩ := fits_iff.mp hb
  refine ⟨fun hnull => ?_, fun _ => ?_⟩
  · have hfits := hnull.resolve_left hzero b (by simp)
    rw [hb] at hfits
    cases hfits
  have hsize := h.size_le (b := b) (by simp)
  have hfits := h.pool_fits
  have hpage' := Nat.le_of_dvd h.pool_pos hpage
  have htake := h.take (k := n + 32) (by omega) (by omega)
  obtain ⟨k, left, hcarve, hk, hspan, hleft⟩ := carve_eq hle
  rw [hcarve] at htake
  exact ⟨P, b, Q, _, k, left, rfl, hfree, heq, hk, hspan, hleft, htake⟩

/-- The hole is too small, the block behind it is taken: the last one is split. -/
theorem malloc_spec_behind : ∃ s₀ σ,
    myAllocatorInit 512 (some 65536) (State.initial fun _ => 0) = some s₀ ∧
    run (step allocator permits) ⟨s₀, View.empty⟩ leaveHole = some σ ∧
    ∃ P b Q m k rest, [⟨65536, 160, true⟩, ⟨65696, 64, false⟩, ⟨65760, 288, true⟩] = P ++ b :: Q ∧
      b.free = true ∧ myMalloc 200 σ.heap = some ({ σ.heap with mem := m }, b.addr + sizeofHeader) ∧
      200 + sizeofHeader ≤ k ∧ k + span rest = b.size ∧
      (rest = [] ∨ ∃ r, rest = [r] ∧ r.free = true ∧ sizeofHeader ≤ r.size) ∧
      Forward { σ.heap with mem := m } (P ++ ⟨b.addr, k, false⟩ :: (rest ++ Q)) := by
  obtain ⟨s₀, σ, hinit, hr, hinv⟩ := inv_leaveHole
  have hpool : σ.heap.pool = 65536 := (tiles_cons.mp hinv.forward.tiles).1.symm
  refine ⟨s₀, σ, hinit, hr, (malloc_spec σ.heap _ 200 hinv.forward (by rw [hpool]; decide) (by decide)).2 ?_⟩
  rintro (hzero | hno)
  · cases hzero
  · exact absurd (hno ⟨65760, 288, true⟩ (by simp) rfl) (by decide)

end OsExercises.BestFit
