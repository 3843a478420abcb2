import OsExercises.FreeList.Init
import OsExercises.Lib.AllocatorClient
import Mathlib.Data.Finset.Max
import Mathlib.Data.Finset.Dedup

/-!
# The free list refines a set of free slots

`slotSet` is what the allocator is for: a set of free header addresses from which `malloc` takes the
least and to which `free` adds. `Inv` relates a heap, the view of its client and the list in memory:
a slot of the initial list is free exactly as long as its payload is not live. `simulation` is the
refinement, for both variants of the source (each call of the global one starts with the mutex
free, see `Locking` for what it does to the mutex).
-/

namespace OsExercises.FreeList
open Client

/-- The free slots of a pool, as a set. -/
def slotSet : Allocator (Finset Nat) where
  malloc size F := some <|
    if h : size ≤ BLOCK_SIZE ∧ F.Nonempty then (F.erase (F.min' h.2), F.min' h.2 + sizeofHeader)
    else (F, 0)
  free p F := some (insert (p - sizeofHeader) F)
  write _ _ F := F

/-! ### The two variants as allocators -/

inductive Variant where
  | threadLocal
  | global
deriving DecidableEq

namespace Variant

/-- The calls of the global variant, each made with the mutex free. -/
def allocator : Variant → Allocator State
  | threadLocal =>
    { malloc := fun size s => some (myMalloc size s)
      free := myFree
      write := fun a x s => { s with mem := s.mem.poke a x } }
  | global =>
    { malloc := fun size s => (Global.lock ⟨s, false⟩).map fun g =>
        ((Global.myMalloc size g).1.heap, (Global.myMalloc size g).2)
      free := fun p s => (Global.lock ⟨s, false⟩).bind fun g => (Global.myFree p g).map Global.heap
      write := fun a x s => { s with mem := s.mem.poke a x } }

def myAllocatorInit (total_size : Nat) (mapped : Option Nat) (s : State) : Variant → Option State
  | threadLocal => FreeList.myAllocatorInit total_size mapped s
  | global => (Global.lock ⟨s, false⟩).bind fun g =>
      (Global.myAllocatorInit total_size mapped g).map Global.heap

theorem allocator_eq (v : Variant) : v.allocator = threadLocal.allocator := by
  cases v with
  | threadLocal => rfl
  | global =>
    refine Allocator.ext ?_ ?_ rfl
    · funext size s
      exact congrArg some (Global.myMalloc_heap size ⟨s, true⟩)
    · funext p s
      exact Global.myFree_heap p ⟨s, true⟩

theorem myAllocatorInit_eq (total_size : Nat) (mapped : Option Nat) (s : State) (v : Variant) :
    v.myAllocatorInit total_size mapped s = FreeList.myAllocatorInit total_size mapped s := by
  cases v with
  | threadLocal => rfl
  | global => exact Global.myAllocatorInit_heap total_size mapped ⟨s, true⟩

end Variant

/-! ### The contract and the invariant -/

/-- Any request, the release of any pointer returned earlier, stores into live payloads. -/
def permits (v : View) : Op → Bool
  | .malloc _ => true
  | .free p => p ∈ v.returned
  | .write p off _ => p ∈ v.pointers ∧ off < BLOCK_SIZE

/-- The list `l` of the heap against the initial list `l₀` of a pool at `base`. -/
structure Inv (l₀ : List Nat) (base psize : Nat) (s : State) (v : View) (l : List Nat) : Prop where
  wf : Wf s l
  pool : s.pool = base
  poolSize : s.poolSize = psize
  initial : ∀ a ∈ l₀, s.IsSlot a
  mem_iff : ∀ a, a ∈ l ↔ a ∈ l₀ ∧ a + 8 ∉ v.pointers
  returned : ∀ p ∈ v.returned, ∃ a ∈ l₀, p = a + 8
  live : ∀ p ∈ v.pointers, p ∈ v.returned
  nodup : v.pointers.Nodup

namespace Inv

variable {l₀ l t : List Nat} {base psize a p size : Nat} {s : State} {v : View}

theorem start (h : Wf s l) : Inv l s.pool s.poolSize s View.empty l :=
  ⟨h, rfl, rfl, h.slot, by simp [View.empty, View.pointers], by simp [View.empty],
    by simp [View.empty, View.pointers], by simp [View.empty, View.pointers]⟩

theorem malloc_cons (h : Inv l₀ base psize s v (a :: t)) :
    Inv l₀ base psize { s with headerStart := next s.mem a } (v.record size (a + 8)) t := by
  have ha := (h.mem_iff a).1 List.mem_cons_self
  rw [View.record_of_ne v size (by omega)]
  have hp : View.pointers ⟨(a + 8, size) :: v.live, (a + 8) :: v.returned, v.trace ++ [a + 8]⟩ =
      (a + 8) :: v.pointers := rfl
  refine ⟨h.wf.tail, h.pool, h.poolSize, h.initial, ?_, ?_, ?_, ?_⟩
  · intro b
    have hb := h.mem_iff b
    have hlt := (List.pairwise_cons.1 h.wf.sorted).1 b
    rw [hp, List.mem_cons, not_or]
    constructor
    · intro hbt
      have hab := hlt hbt
      exact ⟨(hb.1 (List.mem_cons_of_mem _ hbt)).1, by omega,
        (hb.1 (List.mem_cons_of_mem _ hbt)).2⟩
    · rintro ⟨hb₀, hne, hnl⟩
      rcases List.mem_cons.1 (hb.2 ⟨hb₀, hnl⟩) with rfl | hbt
      · exact absurd rfl hne
      · exact hbt
  · intro q hq
    rcases List.mem_cons.1 hq with rfl | hq
    · exact ⟨a, ha.1, rfl⟩
    · exact h.returned q hq
  · intro q hq
    rw [hp] at hq
    rcases List.mem_cons.1 hq with rfl | hq
    · exact List.mem_cons_self
    · exact List.mem_cons_of_mem _ (h.live q hq)
  · rw [hp]
    exact List.nodup_cons.2 ⟨ha.2, h.nodup⟩

theorem malloc_null (h : Inv l₀ base psize s v l) : Inv l₀ base psize s (v.record size 0) l :=
  ⟨h.wf, h.pool, h.poolSize, h.initial, h.mem_iff, h.returned, h.live, h.nodup⟩

/-- The client's part of a release: the invariant with the list `l` and `p = b + 8` added. -/
theorem release {s' : State} {l' : List Nat} {b : Nat} (h : Inv l₀ base psize s v l)
    (hwf : Wf s' l') (hpool : s'.pool = s.pool) (hsize : s'.poolSize = s.poolSize) (hb : b ∈ l₀)
    (hl' : ∀ a, a ∈ l' ↔ a = b ∨ a ∈ l) : Inv l₀ base psize s' (v.release (b + 8)) l' := by
  refine ⟨hwf, hpool.trans h.pool, hsize.trans h.poolSize, ?_, ?_, h.returned,
    fun q hq => h.live q (View.mem_pointers_release.1 hq).1, ?_⟩
  · intro a ha
    obtain ⟨k, hk⟩ := h.initial a ha
    exact ⟨k, by rw [hpool, hsize]; exact hk⟩
  · intro a
    rw [hl', h.mem_iff, View.mem_pointers_release]
    constructor
    · rintro (rfl | ⟨ha, hn⟩)
      · exact ⟨hb, fun hq => hq.2 rfl⟩
      · exact ⟨ha, fun hq => hn hq.1⟩
    · rintro ⟨ha, hn⟩
      by_cases hab : a = b
      · exact .inl hab
      · exact .inr ⟨ha, fun hq => hn ⟨hq, by omega⟩⟩
  · exact (List.filter_sublist.map Prod.fst).nodup h.nodup

theorem notMem_of_live {b : Nat} (h : Inv l₀ base psize s v l) (hp : b + 8 ∈ v.pointers) : b ∉ l :=
  fun hb => ((h.mem_iff b).1 hb).2 hp

theorem free (h : Inv l₀ base psize s v l) (hp : p ∈ v.returned) :
    ∃ s' l', myFree p s = some s' ∧ Inv l₀ base psize s' (v.release p) l' ∧
      ∀ a, a ∈ l' ↔ a = p - 8 ∨ a ∈ l := by
  obtain ⟨b, hb, rfl⟩ := h.returned p hp
  rw [Nat.add_sub_cancel]
  by_cases hbl : b ∈ l
  · have hl : ∀ a, a ∈ l ↔ a = b ∨ a ∈ l := fun a => ⟨.inr, fun h => h.elim (fun e => e ▸ hbl) id⟩
    exact ⟨s, l, h.wf.free_again hbl, h.release h.wf rfl rfl hb hl, hl⟩
  · obtain ⟨s', l', hs', hwf, hl', hpool, hsize⟩ := h.wf.free_insert (h.initial b hb) hbl
    exact ⟨s', l', hs', h.release hwf hpool hsize hb hl', hl'⟩

theorem write {off : Nat} (h : Inv l₀ base psize s v l) (hp : p ∈ v.pointers) (hoff : off < BLOCK_SIZE)
    (x : UInt8) : Inv l₀ base psize { s with mem := s.mem.poke (p + off) x } v l := by
  obtain ⟨b, hb, rfl⟩ := h.returned p (h.live p hp)
  exact ⟨h.wf.poke (h.initial b hb) hoff x, h.pool, h.poolSize, h.initial, h.mem_iff, h.returned,
    h.live, h.nodup⟩

end Inv

/-! ### The simulation -/

theorem min'_toFinset_cons {a : Nat} {t : List Nat} (hs : (a :: t).Pairwise (· < ·))
    (hne : (a :: t).toFinset.Nonempty) : (a :: t).toFinset.min' hne = a := by
  refine le_antisymm (Finset.min'_le _ _ (by simp)) (Finset.le_min' _ _ _ fun b hb => ?_)
  rcases List.mem_cons.1 (List.mem_toFinset.1 hb) with rfl | hb
  · exact le_refl _
  · exact Nat.le_of_lt ((List.pairwise_cons.1 hs).1 b hb)

theorem erase_toFinset_cons {a : Nat} {t : List Nat} (hs : (a :: t).Pairwise (· < ·)) :
    (a :: t).toFinset.erase a = t.toFinset := by
  have ha : a ∉ t.toFinset := fun h =>
    Nat.lt_irrefl a ((List.pairwise_cons.1 hs).1 a (List.mem_toFinset.1 h))
  rw [List.toFinset_cons, Finset.erase_insert ha]

theorem slotSet_malloc_null {l : List Nat} {size : Nat} (h : BLOCK_SIZE < size ∨ l = []) :
    slotSet.malloc size l.toFinset = some (l.toFinset, 0) := by
  have hnot : ¬ (size ≤ BLOCK_SIZE ∧ l.toFinset.Nonempty) := by
    rw [List.toFinset_nonempty_iff]
    rintro ⟨h1, h2⟩
    rcases h with h3 | h3
    · omega
    · exact h2 h3
  simp only [slotSet, dif_neg hnot]

theorem slotSet_malloc_cons {a size : Nat} {t : List Nat} (hs : (a :: t).Pairwise (· < ·))
    (hsize : size ≤ BLOCK_SIZE) : slotSet.malloc size (a :: t).toFinset = some (t.toFinset, a + 8) := by
  have hne : (a :: t).toFinset.Nonempty := by simp
  simp only [slotSet, dif_pos (And.intro hsize hne), min'_toFinset_cons hs, erase_toFinset_cons hs,
    sizeofHeader_eq]

variable {l₀ : List Nat} {base psize : Nat}

def Refines (l₀ : List Nat) (base psize : Nat) (s : State) (v : View) (F : Finset Nat) : Prop :=
  ∃ l, Inv l₀ base psize s v l ∧ l.toFinset = F

theorem simulation (v : Variant) :
    Simulation v.allocator slotSet permits (Refines l₀ base psize) := by
  rw [v.allocator_eq]
  refine ⟨?_, ?_, ?_⟩
  · rintro s v _ size s' p ⟨l, h, rfl⟩ - hm
    have hm : myMalloc size s = (s', p) := Option.some.inj hm
    by_cases hsize : BLOCK_SIZE < size ∨ l = []
    · rw [h.wf.malloc_null hsize] at hm
      cases hm
      exact ⟨l.toFinset, slotSet_malloc_null hsize, l, h.malloc_null, rfl⟩
    · cases l with
      | nil => exact absurd (.inr rfl) hsize
      | cons a t =>
        have hle : size ≤ BLOCK_SIZE := Nat.le_of_not_lt fun h => hsize (.inl h)
        rw [h.wf.malloc_cons hle] at hm
        cases hm
        exact ⟨t.toFinset, slotSet_malloc_cons h.wf.sorted hle, t, h.malloc_cons, rfl⟩
  · rintro s v _ p s' ⟨l, h, rfl⟩ hp hf
    obtain ⟨s'', l', hs', h', hl'⟩ := h.free (p := p) (by simpa [permits] using hp)
    obtain rfl : s'' = s' := Option.some.inj (hs'.symm.trans hf)
    refine ⟨l'.toFinset, ?_, l', h', rfl⟩
    simp only [slotSet, Option.some.injEq]
    ext a
    simp [hl', sizeofHeader_eq]
  · rintro s v _ p off x ⟨l, h, rfl⟩ hp
    have hp' : p ∈ v.pointers ∧ off < BLOCK_SIZE := by simpa [permits] using hp
    exact ⟨l, h.write hp'.1 hp'.2 x, rfl⟩

end OsExercises.FreeList
