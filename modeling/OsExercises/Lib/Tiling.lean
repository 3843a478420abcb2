import Mathlib.Algebra.Ring.Nat
import Mathlib.Data.List.Chain
import Mathlib.Data.List.DropRight

/-!
# Tilings of an interval by blocks

`Tiles least lo l`: the blocks `l` follow each other without a gap from `lo` on, so they cover
`[lo, lo + span l)` and do not overlap (`Tiles.apart`). Handing out `k` bytes of a free block is
`carve`, giving a block back is `release`, which merges it with the runs of free blocks on both
sides. Both keep the tiling (`tiles_carve`, `tiles_merged`) and leave it `Coalesced`.
-/

namespace OsExercises

/-- A block of memory, `free` if it may be handed out. -/
@[ext] structure Block where
  addr : Nat
  size : Nat
  free : Bool
deriving DecidableEq

namespace Tiling

def span (l : List Block) : Nat := (l.map Block.size).sum

@[simp] theorem span_nil : span [] = 0 := rfl

@[simp] theorem span_cons (b : Block) (l : List Block) : span (b :: l) = b.size + span l := rfl

@[simp] theorem span_append (l l' : List Block) : span (l ++ l') = span l + span l' := by
  simp [span]

/-- The blocks `l` lie side by side from `lo` on, none shorter than `least`. -/
def Tiles (least : Nat) : Nat → List Block → Prop
  | _, [] => True
  | lo, b :: l => b.addr = lo ∧ least ≤ b.size ∧ Tiles least (lo + b.size) l

/-- No two neighbours are both free. -/
def Coalesced (l : List Block) : Prop := l.IsChain fun a b => ¬ (a.free = true ∧ b.free = true)

variable {least lo rest k : Nat} {a b : Block} {l l' A C P Q : List Block}

@[simp] theorem tiles_nil : Tiles least lo [] := trivial

@[simp] theorem tiles_cons :
    Tiles least lo (b :: l) ↔ b.addr = lo ∧ least ≤ b.size ∧ Tiles least (lo + b.size) l := Iff.rfl

theorem tiles_append :
    Tiles least lo (l ++ l') ↔ Tiles least lo l ∧ Tiles least (lo + span l) l' := by
  induction l generalizing lo with
  | nil => simp
  | cons b l ih => simp [ih, and_assoc, Nat.add_assoc]

namespace Tiles

theorem bounds (h : Tiles least lo l) (hb : b ∈ l) :
    lo ≤ b.addr ∧ b.addr + b.size ≤ lo + span l ∧ least ≤ b.size := by
  induction l generalizing lo with
  | nil => cases hb
  | cons c l ih =>
    obtain ⟨hc, hsize, ht⟩ := h
    rw [span_cons]
    rcases List.mem_cons.mp hb with rfl | hb
    · exact ⟨by omega, by omega, hsize⟩
    · have := ih ht hb
      omega

theorem pairwise (h : Tiles least lo l) : l.Pairwise fun a b => a.addr + a.size ≤ b.addr := by
  induction l generalizing lo with
  | nil => exact .nil
  | cons c l ih =>
    obtain ⟨hc, -, ht⟩ := h
    refine List.pairwise_cons.mpr ⟨fun b hb => ?_, ih ht⟩
    have := (ht.bounds hb).1
    omega

theorem apart (h : Tiles least lo l) (ha : a ∈ l) (hb : b ∈ l) (hne : a ≠ b) :
    a.addr + a.size ≤ b.addr ∨ b.addr + b.size ≤ a.addr := by
  have hsymm : Std.Symm fun a b : Block => a.addr + a.size ≤ b.addr ∨ b.addr + b.size ≤ a.addr :=
    ⟨fun _ _ => Or.symm⟩
  exact (h.pairwise.imp (S := fun a b => a.addr + a.size ≤ b.addr ∨ b.addr + b.size ≤ a.addr)
    Or.inl).forall ha hb hne

theorem eq_of_addr (h : Tiles least lo l) (hpos : 0 < least) (ha : a ∈ l) (hb : b ∈ l)
    (hab : a.addr = b.addr) : a = b := by
  by_contra hne
  have h1 := (h.bounds ha).2.2
  have h2 := (h.bounds hb).2.2
  rcases h.apart ha hb hne with h3 | h3 <;> omega

theorem length_le (h : Tiles least lo l) (hpos : 0 < least) : l.length ≤ span l := by
  induction l generalizing lo with
  | nil => exact Nat.zero_le _
  | cons c l ih =>
    obtain ⟨-, hsize, ht⟩ := h
    have := ih ht
    rw [span_cons, List.length_cons]
    omega

end Tiles

/-! ### Handing out -/

/-- `k` bytes taken from `b`: the whole block if the rest is shorter than `rest`. -/
def carve (rest k : Nat) (b : Block) : List Block :=
  if b.size < k + rest then [{ b with free := false }]
  else [⟨b.addr, k, false⟩, ⟨b.addr + k, b.size - k, true⟩]

def fits (k : Nat) (b : Block) : Bool := b.free && decide (k ≤ b.size)

theorem fits_iff : fits k b = true ↔ b.free = true ∧ k ≤ b.size := by simp [fits]

theorem first_fit (k : Nat) (l : List Block) : (∀ b ∈ l, fits k b = false) ∨
    ∃ P b Q, l = P ++ b :: Q ∧ (∀ c ∈ P, fits k c = false) ∧ fits k b = true := by
  cases hl : l.find? (fits k) with
  | none => exact .inl fun b hb => by simpa using List.find?_eq_none.mp hl b hb
  | some b =>
    obtain ⟨hb, P, Q, rfl, hP⟩ := List.find?_eq_some_iff_append.mp hl
    exact .inr ⟨P, b, Q, rfl, fun c hc => by simpa using hP c hc, hb⟩

theorem span_carve (hk : k ≤ b.size) : span (carve rest k b) = b.size := by
  unfold carve
  split
  · simp
  · simp only [span_cons, span_nil]; omega

/-- The first piece has at least `k` bytes and is allocated; what is left over is free and worth a block. -/
theorem carve_eq (hk : k ≤ b.size) : ∃ k' left, carve rest k b = ⟨b.addr, k', false⟩ :: left ∧ k ≤ k' ∧
    k' + span left = b.size ∧ (left = [] ∨ ∃ r, left = [r] ∧ r.free = true ∧ rest ≤ r.size) := by
  have hspan : span (carve rest k b) = b.size := span_carve hk
  by_cases hlt : b.size < k + rest
  · have hcarve : carve rest k b = [⟨b.addr, b.size, false⟩] := if_pos hlt
    rw [hcarve] at hspan
    exact ⟨b.size, [], hcarve, hk, hspan, .inl rfl⟩
  · have hcarve : carve rest k b = [⟨b.addr, k, false⟩, ⟨b.addr + k, b.size - k, true⟩] := if_neg hlt
    rw [hcarve] at hspan
    refine ⟨k, _, hcarve, le_rfl, hspan, .inr ⟨_, rfl, rfl, ?_⟩⟩
    show rest ≤ b.size - k
    omega

theorem tiles_carve (hk : k ≤ b.size) (hleast : least ≤ k) (hrest : least ≤ rest)
    (h : Tiles least lo (P ++ b :: Q)) : Tiles least lo (P ++ (carve rest k b ++ Q)) := by
  rw [tiles_append, tiles_cons] at h
  obtain ⟨hP, hb, hsize, hQ⟩ := h
  refine tiles_append.mpr ⟨hP, tiles_append.mpr ⟨?_, by rw [span_carve hk]; exact hQ⟩⟩
  unfold carve
  split
  · exact ⟨hb, hsize, trivial⟩
  · exact ⟨hb, hleast, by show b.addr + k = lo + span P + k; omega, by show least ≤ b.size - k; omega, trivial⟩

theorem Coalesced.carve (hb : b.free = true) (h : Coalesced (P ++ b :: Q)) :
    Coalesced (P ++ (carve rest k b ++ Q)) := by
  obtain ⟨hP, hbQ, hPb⟩ := List.isChain_append.mp h
  obtain ⟨hQ, hQ'⟩ := List.isChain_cons.mp hbQ
  unfold Tiling.carve
  split
  · refine List.isChain_append.mpr ⟨hP, List.isChain_cons.mpr ⟨?_, hQ'⟩, ?_⟩
    · rintro y - ⟨h1, -⟩; cases h1
    · rintro x - y hy ⟨-, h2⟩; cases hy; cases h2
  · refine List.isChain_append.mpr ⟨hP, List.isChain_cons_cons.mpr ⟨?_, List.isChain_cons.mpr ⟨?_, hQ'⟩⟩, ?_⟩
    · rintro ⟨h1, -⟩; cases h1
    · rintro y hy ⟨-, h2⟩; exact hQ y hy ⟨hb, h2⟩
    · rintro x - y hy ⟨-, h2⟩; cases hy; cases h2

/-! ### Giving back -/

/-- The free block that covers `A`, `b` and `C`. -/
def merged (A : List Block) (b : Block) (C : List Block) : Block :=
  ⟨(A.headD b).addr, span A + b.size + span C, true⟩

/-- `b` given back between `P` and `Q`: one free block with the free runs on both sides. -/
def release (P : List Block) (b : Block) (Q : List Block) : List Block :=
  P.rdropWhile Block.free ++
    merged (P.rtakeWhile Block.free) b (Q.takeWhile Block.free) :: Q.dropWhile Block.free

theorem tiles_merged (h : Tiles least lo (P ++ (A ++ b :: (C ++ Q)))) :
    Tiles least lo (P ++ merged A b C :: Q) := by
  simp only [tiles_append, tiles_cons] at h ⊢
  obtain ⟨hP, hA, hb, hsize, hC, hQ⟩ := h
  refine ⟨hP, ?_, ?_, ?_⟩
  · cases A with
    | nil => simpa [merged] using hb
    | cons c A => exact hA.1
  · simp only [merged]; omega
  · simp only [merged]
    rw [show lo + span P + (span A + b.size + span C) = lo + span P + span A + b.size + span C by omega]
    exact hQ

theorem release_split (P : List Block) (b : Block) (Q : List Block) :
    P ++ b :: Q = P.rdropWhile Block.free ++ (P.rtakeWhile Block.free ++
      b :: (Q.takeWhile Block.free ++ Q.dropWhile Block.free)) := by
  rw [List.takeWhile_append_dropWhile, ← List.append_assoc, List.rdropWhile_append_rtakeWhile]

theorem not_free_of_rdropWhile (x : Block) (hx : x ∈ (P.rdropWhile Block.free).getLast?) :
    x.free = false := by
  by_cases hne : P.rdropWhile Block.free = []
  · rw [hne] at hx; cases hx
  · rw [List.getLast?_eq_some_getLast hne] at hx
    cases hx
    simpa using List.rdropWhile_last_not Block.free P hne

theorem not_free_of_dropWhile (y : Block) (hy : y ∈ (Q.dropWhile Block.free).head?) :
    y.free = false := by
  have := List.head?_dropWhile_not Block.free Q
  rw [Option.mem_def.mp hy] at this
  simpa using this

theorem coalesced_release (hP : Coalesced P) (hQ : Coalesced Q) : Coalesced (release P b Q) := by
  refine List.isChain_append.mpr ⟨ List.IsChain.prefix hP (List.rdropWhile_prefix _ _), ?_, ?_⟩
  · refine List.isChain_cons.mpr ⟨?_, hQ.suffix (List.dropWhile_suffix _)⟩
    rintro y hy ⟨-, h2⟩
    rw [not_free_of_dropWhile y hy] at h2
    cases h2
  · rintro x hx y - ⟨h1, -⟩
    rw [not_free_of_rdropWhile x hx] at h1
    cases h1

theorem mem_release (hb : a.free = false) : a ∈ release P b Q ↔ a ∈ P ∨ a ∈ Q := by
  have hP : a ∈ P ↔ a ∈ P.rdropWhile Block.free := by
    constructor
    · intro h
      rw [← List.rdropWhile_append_rtakeWhile (p := Block.free) (l := P)] at h
      rcases List.mem_append.mp h with h | h
      · exact h
      · rw [List.mem_rtakeWhile_imp h] at hb; cases hb
    · exact fun h => (List.rdropWhile_prefix _ _).subset h
  have hQ : a ∈ Q ↔ a ∈ Q.dropWhile Block.free := by
    constructor
    · intro h
      rw [← List.takeWhile_append_dropWhile (p := Block.free) (l := Q)] at h
      rcases List.mem_append.mp h with h | h
      · rw [List.mem_takeWhile_imp h] at hb; cases hb
      · exact h
    · exact fun h => (List.dropWhile_suffix _).subset h
  have hne : a ≠ merged (P.rtakeWhile Block.free) b (Q.takeWhile Block.free) := by
    rintro rfl; cases hb
  rw [hP, hQ, release, List.mem_append, List.mem_cons, or_iff_right hne]

theorem Coalesced.eq_singleton (h : Coalesced l) (hne : l ≠ []) (hfree : ∀ b ∈ l, b.free = true) :
    ∃ b, l = [b] := by
  rcases l with _ | ⟨a, _ | ⟨b, l⟩⟩
  · exact absurd rfl hne
  · exact ⟨a, rfl⟩
  · exact absurd ⟨hfree a (by simp), hfree b (by simp)⟩ (List.isChain_cons_cons.mp h).1

end Tiling
end OsExercises
