import OsExercises.FreeList.Model
import OsExercises.Lib.Chain

/-!
# The free list in memory

`Wf s l`: the list reachable from `header_start` is `l`, it is strictly increasing, and its cells
are slots of the pool. The slots have stride `HEADER_BLOCK_SIZE`, so the headers of two slots never
overlap and a payload overlaps no header; every lemma about `my_malloc` and `my_free` below comes
down to this and to where the link stores land.
-/

namespace OsExercises.FreeList

theorem sizeofHeader_eq : sizeofHeader = 8 := rfl
theorem HEADER_BLOCK_SIZE_eq : HEADER_BLOCK_SIZE = 1032 := rfl
theorem BLOCK_SIZE_eq : BLOCK_SIZE = 1024 := rfl

theorem next_setNext_same {m : Mem} {b v : Nat} (hv : v < 2 ^ 64) : next (setNext m b v) b = v := by
  rw [next, setNext, Mem.load_store_same, Nat.mod_eq_of_lt]
  simpa using hv

theorem next_setNext_apart {m : Mem} {b c v : Nat} (h : b + 8 ≤ c ∨ c + 8 ≤ b) :
    next (setNext m b v) c = next m c := Mem.load_store_apart h

theorem next_lt (m : Mem) (b : Nat) : next m b < 2 ^ 64 := by
  have := Mem.load_lt m b 8
  simpa [next] using this

namespace State

/-- `a` is the header address of a slot that lies inside the pool. -/
def IsSlot (s : State) (a : Nat) : Prop :=
  ∃ k, a = s.pool + HEADER_BLOCK_SIZE * k ∧ HEADER_BLOCK_SIZE * (k + 1) ≤ s.poolSize

variable {s : State} {a b : Nat}

theorem IsSlot.le (h : s.IsSlot a) : s.pool ≤ a ∧ a + HEADER_BLOCK_SIZE ≤ s.pool + s.poolSize := by
  obtain ⟨k, rfl, hk⟩ := h
  rw [HEADER_BLOCK_SIZE_eq] at *
  omega

theorem IsSlot.apart (ha : s.IsSlot a) (hb : s.IsSlot b) (h : a ≠ b) :
    a + HEADER_BLOCK_SIZE ≤ b ∨ b + HEADER_BLOCK_SIZE ≤ a := by
  obtain ⟨j, rfl, -⟩ := ha
  obtain ⟨k, rfl, -⟩ := hb
  rw [HEADER_BLOCK_SIZE_eq] at *
  omega

theorem IsSlot.apart_header (ha : s.IsSlot a) (hb : s.IsSlot b) (h : a ≠ b) :
    a + 8 ≤ b ∨ b + 8 ≤ a := by
  have := ha.apart hb h
  rw [HEADER_BLOCK_SIZE_eq] at this
  omega

theorem IsSlot.payload_apart (ha : s.IsSlot a) (hb : s.IsSlot b) {off : Nat} (h : off < BLOCK_SIZE) :
    a + 8 + off < b ∨ b + 8 ≤ a + 8 + off := by
  rw [BLOCK_SIZE_eq] at h
  by_cases hab : a = b
  · omega
  · have := ha.apart hb hab
    rw [HEADER_BLOCK_SIZE_eq] at this
    omega

end State

/-- The pool is mapped and `l` is its free list. -/
structure Wf (s : State) (l : List Nat) : Prop where
  pool_pos : 0 < s.pool
  fits : s.pool + s.poolSize ≤ 2 ^ 64
  chain : Chain (next s.mem) 0 s.headerStart l
  sorted : l.Pairwise (· < ·)
  slot : ∀ a ∈ l, s.IsSlot a

namespace Wf

variable {s : State} {l t : List Nat} {a b size : Nat}

theorem slot_lt (h : Wf s l) (hb : s.IsSlot b) : b + HEADER_BLOCK_SIZE ≤ 2 ^ 64 := by
  have := hb.le
  have := h.fits
  omega

theorem slot_pos (h : Wf s l) (hb : s.IsSlot b) : 0 < b :=
  Nat.lt_of_lt_of_le h.pool_pos hb.le.1

theorem sizeAdd_slot (h : Wf s l) (hb : s.IsSlot b) : sizeAdd b sizeofHeader = b + 8 := by
  have := h.slot_lt hb
  rw [HEADER_BLOCK_SIZE_eq] at this
  exact sizeAdd_of_lt (by rw [sizeofHeader_eq]; omega)

theorem sizeSub_payload (h : Wf s l) (hb : s.IsSlot b) : sizeSub (b + 8) sizeofHeader = b := by
  have := h.slot_lt hb
  rw [HEADER_BLOCK_SIZE_eq] at this
  rw [sizeSub_of_le (by rw [sizeofHeader_eq]; omega) (by omega), sizeofHeader_eq]
  omega

/-! ### Allocation -/

theorem malloc_cons (h : Wf s (a :: t)) (hsize : size ≤ BLOCK_SIZE) :
    myMalloc size s = ({ s with headerStart := next s.mem a }, a + 8) := by
  have hhead : s.headerStart = a := h.chain.1.1
  have hpool := h.pool_pos
  have ha := h.slot a List.mem_cons_self
  have hpos := h.slot_pos ha
  rw [myMalloc, if_neg (by omega), if_neg (by omega), if_neg (by omega), hhead]
  show (_, sizeAdd a sizeofHeader) = _
  rw [h.sizeAdd_slot ha]

theorem tail (h : Wf s (a :: t)) : Wf { s with headerStart := next s.mem a } t :=
  ⟨h.pool_pos, h.fits, (chain_cons.1 h.chain).2.2, (List.pairwise_cons.1 h.sorted).2,
    fun b hb => h.slot b (List.mem_cons_of_mem _ hb)⟩

theorem malloc_null (h : Wf s l) (hsize : BLOCK_SIZE < size ∨ l = []) : myMalloc size s = (s, 0) := by
  have hpool := h.pool_pos
  rw [myMalloc, if_neg (by omega)]
  rcases hsize with hsize | rfl
  · rw [if_pos hsize]
  · have hhead : s.headerStart = 0 := h.chain.1
    rw [if_pos hhead]
    split <;> rfl

end Wf

/-! ### Release -/

/-- The search stops at the last cell that is not above `b`: behind it the list goes on above `b`. -/
theorem findPlace_spec {m : Mem} {b : Nat} (l : List Nat) (c fuel : Nat)
    (hl : Chain (next m) 0 (next m c) l) (hs : (c :: l).Pairwise (· < ·)) (hc : c ≤ b)
    (hf : l.length < fuel) :
    ∃ l₁ d l₂, c :: l = l₁ ++ d :: l₂ ∧ d ≤ b ∧ (∀ x ∈ l₂, b < x) ∧
      whileLoop (fun c => next m c ≠ 0 ∧ next m c ≤ b) (fun c => some (next m c)) fuel c = some d := by
  obtain ⟨fuel, rfl⟩ := Nat.exists_eq_add_of_lt (Nat.zero_lt_of_lt hf)
  simp only [Nat.zero_add] at hf ⊢
  induction l generalizing c fuel with
  | nil =>
    have hnil : next m c = 0 := hl.1
    exact ⟨[], c, [], rfl, hc, by simp, whileLoop_exit (Nat.succ_pos _) (by simp [hnil])⟩
  | cons x l ih =>
    obtain ⟨hx, hne, hl⟩ := chain_cons.1 hl
    have hs' := (List.pairwise_cons.1 hs).2
    by_cases hxb : x ≤ b
    · obtain ⟨fuel, rfl⟩ : ∃ n, fuel = n + 1 := ⟨fuel - 1, by simp at hf; omega⟩
      obtain ⟨l₁, d, l₂, heq, hd, hl₂, hw⟩ := ih x hl hs' hxb fuel (by simpa using hf)
      refine ⟨c :: l₁, d, l₂, by rw [heq]; rfl, hd, hl₂, ?_⟩
      rw [whileLoop_step (t := x) (by simp [hx, hne, hxb]) (by rw [hx]), hw]
    · refine ⟨[], c, x :: l, rfl, hc, ?_, ?_⟩
      · intro y hy
        rcases List.mem_cons.1 hy with rfl | hy
        · omega
        · have := (List.pairwise_cons.1 hs').1 y hy
          omega
      · exact whileLoop_exit (Nat.succ_pos _) (by simp [hx, hxb])

/-- Every cell of a list below `B`, strictly increasing, so the list is not longer than `B`. -/
theorem length_le_of_sorted {l : List Nat} {B : Nat} (hs : l.Pairwise (· < ·)) (hB : ∀ a ∈ l, a < B) :
    l.length ≤ B := by
  have hnd : l.Nodup := hs.imp fun h => Nat.ne_of_lt h
  have hsub : l ⊆ List.range B := fun a ha => List.mem_range.2 (hB a ha)
  simpa using hnd.length_le_of_subset hsub

/-- The cells in front of `d` and behind `b` keep their order when `b` goes between. -/
theorem pairwise_insert {l₁ l₂ : List Nat} {b d : Nat} (h : (l₁ ++ d :: l₂).Pairwise (· < ·))
    (hd : d < b) (hl₂ : ∀ x ∈ l₂, b < x) : (l₁ ++ d :: b :: l₂).Pairwise (· < ·) := by
  obtain ⟨hl₁, hdl₂, hcross⟩ := List.pairwise_append.1 h
  obtain ⟨hdx, hl₂s⟩ := List.pairwise_cons.1 hdl₂
  refine List.pairwise_append.2 ⟨hl₁, List.pairwise_cons.2 ⟨?_, List.pairwise_cons.2 ⟨hl₂, hl₂s⟩⟩, ?_⟩
  · intro x hx
    rcases List.mem_cons.1 hx with rfl | hx
    · exact hd
    · exact hdx x hx
  · intro x hx y hy
    have hxd := hcross x hx d List.mem_cons_self
    rcases List.mem_cons.1 hy with rfl | hy
    · exact hxd
    · rcases List.mem_cons.1 hy with rfl | hy
      · exact Nat.lt_trans hxd hd
      · exact hcross x hx y (List.mem_cons_of_mem _ hy)

theorem mem_insert {l₁ l₂ : List Nat} {a b d : Nat} :
    a ∈ l₁ ++ d :: b :: l₂ ↔ a = b ∨ a ∈ l₁ ++ d :: l₂ := by
  simp only [List.mem_append, List.mem_cons]
  tauto

namespace Wf

variable {s : State} {l t : List Nat} {a b : Nat}

theorem findPlace (h : Wf s l) (hb : s.headerStart ≤ b) (hne : s.headerStart ≠ 0) :
    ∃ l₁ d l₂, l = l₁ ++ d :: l₂ ∧ d ≤ b ∧ (∀ x ∈ l₂, b < x) ∧
      FreeList.findPlace s.mem b s.headerStart = some d := by
  cases l with
  | nil => exact absurd h.chain.1 hne
  | cons c t =>
    obtain ⟨hc, -, ht⟩ := chain_cons.1 h.chain
    have hlen : (c :: t).length ≤ 2 ^ 64 := by
      refine length_le_of_sorted h.sorted fun a ha => ?_
      have := h.slot_lt (h.slot a ha)
      rw [HEADER_BLOCK_SIZE_eq] at this
      omega
    rw [FreeList.findPlace, hc]
    exact findPlace_spec t c _ ht h.sorted (hc ▸ hb) hlen

theorem header_apart (h : Wf s l) (hb : s.IsSlot b) (hnot : b ∉ l) (ha : a ∈ l) :
    b + 8 ≤ a ∨ a + 8 ≤ b := hb.apart_header (h.slot a ha) fun e => hnot (e ▸ ha)

theorem slot_lt_64 (h : Wf s l) (hb : s.IsSlot b) : b < 2 ^ 64 := by
  have := h.slot_lt hb
  rw [HEADER_BLOCK_SIZE_eq] at this
  omega

theorem headerStart_lt (h : Wf s l) : s.headerStart < 2 ^ 64 := by
  rw [h.chain.head_eq]
  cases l with
  | nil => exact Nat.two_pow_pos 64
  | cons c t => exact h.slot_lt_64 (h.slot c List.mem_cons_self)

/-- Nothing on the list is below its head. -/
theorem headerStart_le (h : Wf s l) (ha : a ∈ l) : s.headerStart ≠ 0 ∧ s.headerStart ≤ a := by
  cases l with
  | nil => cases ha
  | cons c t =>
    have hc : s.headerStart = c := h.chain.1.1
    refine ⟨hc ▸ h.chain.ne_null List.mem_cons_self, ?_⟩
    rcases List.mem_cons.1 ha with rfl | ha
    · omega
    · have := (List.pairwise_cons.1 h.sorted).1 a ha
      omega

/-- The new head, when `header_start.next` is null or above it. -/
theorem push (h : Wf s l) (hb : s.IsSlot b) (hnot : b ∉ l)
    (hfront : s.headerStart = 0 ∨ s.headerStart > b) :
    Wf { s with mem := setNext s.mem b s.headerStart, headerStart := b } (b :: l) := by
  have hpos := h.slot_pos hb
  refine ⟨h.pool_pos, h.fits, ?_, List.pairwise_cons.2 ⟨?_, h.sorted⟩, ?_⟩
  · exact h.chain.push (next_setNext_same h.headerStart_lt) (Nat.ne_of_gt hpos)
      fun x hx => next_setNext_apart (h.header_apart hb hnot hx)
  · intro x hx
    have := h.headerStart_le hx
    omega
  · intro a ha
    rcases List.mem_cons.1 ha with rfl | ha
    · exact hb
    · exact h.slot a ha

/-- In the middle or at the end: behind the last cell `d` below `b`. -/
theorem insert {l₁ l₂ : List Nat} {d : Nat} (h : Wf s (l₁ ++ d :: l₂)) (hb : s.IsSlot b)
    (hnot : b ∉ l₁ ++ d :: l₂) (hd : d < b) (hl₂ : ∀ x ∈ l₂, b < x) :
    Wf { s with mem := setNext (setNext s.mem b (next s.mem d)) d b } (l₁ ++ d :: b :: l₂) := by
  have hdmem : d ∈ l₁ ++ d :: l₂ := by simp
  have hpos := h.slot_pos hb
  have hdapart := h.header_apart hb hnot hdmem
  refine ⟨h.pool_pos, h.fits, h.chain.insert ?_ ?_ (Nat.ne_of_gt hpos) ?_,
    pairwise_insert h.sorted hd hl₂, ?_⟩
  · exact next_setNext_same (h.slot_lt_64 hb)
  · rw [next_setNext_apart hdapart.symm, next_setNext_same (next_lt _ _)]
  · intro x hx
    have hxmem : x ∈ l₁ ++ d :: l₂ := by
      rcases List.mem_append.1 hx with hx | hx <;> simp [hx]
    have hnd : (l₁ ++ d :: l₂).Nodup := h.sorted.imp fun h => Nat.ne_of_lt h
    have hxd : d ≠ x := by
      rintro rfl
      exact (List.nodup_cons.1 (List.perm_middle.nodup_iff.1 hnd)).1 hx
    have hxapart := (h.slot d hdmem).apart_header (h.slot x hxmem) hxd
    rw [next_setNext_apart hxapart, next_setNext_apart (h.header_apart hb hnot hxmem)]
  · intro a ha
    rcases mem_insert.1 ha with rfl | ha
    · exact hb
    · exact h.slot a ha

theorem free_insert (h : Wf s l) (hb : s.IsSlot b) (hnot : b ∉ l) :
    ∃ s' l', myFree (b + 8) s = some s' ∧ Wf s' l' ∧ (∀ a, a ∈ l' ↔ a = b ∨ a ∈ l) ∧
      s'.pool = s.pool ∧ s'.poolSize = s.poolSize := by
  have hpool := h.pool_pos
  rw [myFree, if_neg (by omega)]
  simp only [h.sizeSub_payload hb]
  by_cases hfront : s.headerStart = 0 ∨ s.headerStart > b
  · rw [if_pos hfront]
    exact ⟨_, b :: l, rfl, h.push hb hnot hfront, fun a => List.mem_cons, rfl, rfl⟩
  · rw [if_neg hfront]
    obtain ⟨l₁, d, l₂, rfl, hd, hl₂, hfind⟩ := h.findPlace (b := b) (by omega) (by omega)
    have hdb : d ≠ b := fun e => hnot (e ▸ by simp)
    simp only [hfind, Option.bind_eq_bind, Option.bind_some, if_neg hdb]
    exact ⟨_, l₁ ++ d :: b :: l₂, rfl, h.insert hb hnot (by omega) hl₂, fun a => mem_insert, rfl, rfl⟩

theorem findPlace_mem (h : Wf s l) (hb : b ∈ l) :
    ¬ (s.headerStart = 0 ∨ s.headerStart > b) ∧ FreeList.findPlace s.mem b s.headerStart = some b := by
  have hhead := h.headerStart_le hb
  obtain ⟨l₁, d, l₂, rfl, hd, hl₂, hfind⟩ := h.findPlace hhead.2 hhead.1
  have hdb : d = b := by
    simp only [List.mem_append, List.mem_cons] at hb
    rcases hb with hb | rfl | hb
    · have := (List.pairwise_append.1 h.sorted).2.2 b hb d List.mem_cons_self
      omega
    · rfl
    · exact absurd (hl₂ b hb) (Nat.lt_irrefl b)
  exact ⟨by omega, hdb ▸ hfind⟩

theorem free_again (h : Wf s l) (hb : b ∈ l) : myFree (b + 8) s = some s := by
  have hpool := h.pool_pos
  obtain ⟨hhead, hfind⟩ := h.findPlace_mem hb
  rw [myFree, if_neg (by omega)]
  simp only [h.sizeSub_payload (h.slot b hb)]
  rw [if_neg hhead, hfind]
  simp

theorem poke (h : Wf s l) (hb : s.IsSlot b) {off : Nat} (hoff : off < BLOCK_SIZE) (x : UInt8) :
    Wf { s with mem := s.mem.poke (b + 8 + off) x } l := by
  refine ⟨h.pool_pos, h.fits, h.chain.congr fun a ha => ?_, h.sorted, h.slot⟩
  exact Mem.load_poke_apart (hb.payload_apart (h.slot a ha) hoff)

end Wf
end OsExercises.FreeList
