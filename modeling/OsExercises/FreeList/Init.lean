import OsExercises.FreeList.SortedList

/-!
# What `my_allocator_init` builds

The loop that populates the pool starts with its cursor on `header_start` but with `block_count = 0`,
so the first store overwrites `header_start.next = pool` with the address of slot 1: with `N` slots
in the pool the list holds slots `1, …, N - 1` (`init_spec`). `block_count` is an `int` and is
incremented once for each slot, so from `2 ^ 31` slots on the initialisation has no defined result
(`init_undefined`).
-/

namespace OsExercises.FreeList

namespace State

def slot (s : State) (k : Nat) : Nat := s.pool + HEADER_BLOCK_SIZE * k

/-- `cursor->next` -/
def nextAt (s : State) : Cursor → Nat
  | .headerStart => s.headerStart
  | .block a => next s.mem a

theorem slot_apart (s : State) {i j : Nat} (h : i ≠ j) :
    s.slot i + 8 ≤ s.slot j ∨ s.slot j + 8 ≤ s.slot i := by
  unfold slot; rw [HEADER_BLOCK_SIZE_eq]; omega

theorem setNextAt_pool (s : State) (c : Cursor) (v : Nat) : (s.setNextAt c v).pool = s.pool := by
  cases c <;> rfl

theorem setNextAt_poolSize (s : State) (c : Cursor) (v : Nat) :
    (s.setNextAt c v).poolSize = s.poolSize := by
  cases c <;> rfl

theorem setNextAt_slot (s : State) (c : Cursor) (v k : Nat) : (s.setNextAt c v).slot k = s.slot k := by
  unfold slot; rw [setNextAt_pool]

theorem nextAt_setNextAt (s : State) (c : Cursor) {v : Nat} (hv : v < 2 ^ 64) :
    (s.setNextAt c v).nextAt c = v := by
  cases c with
  | headerStart => rfl
  | block a => exact next_setNext_same hv

end State

/-- The cursor before iteration `j`: `header_start`, then slot `j`. -/
def Cursor.At (s : State) (j : Nat) : Cursor → Prop
  | .headerStart => j = 0
  | .block a => 0 < j ∧ a = s.slot j

namespace Cursor.At

variable {s : State} {c : Cursor} {i j v : Nat}

/-- A store through the cursor leaves the links of the slots before it alone. -/
theorem next_setNextAt (hc : c.At s j) (hij : i < j) :
    next (s.setNextAt c v).mem (s.slot i) = next s.mem (s.slot i) := by
  cases c with
  | headerStart => rfl
  | block a =>
    obtain ⟨-, rfl⟩ := hc
    exact next_setNext_apart (s.slot_apart (by omega))

theorem headerStart_setNextAt (hc : c.At s j) (hj : 0 < j) :
    (s.setNextAt c v).headerStart = s.headerStart := by
  cases c with
  | headerStart => exact absurd hc (by unfold Cursor.At; omega)
  | block a => rfl

/-- What is stored through the cursor is still there when the later slots are linked. -/
theorem nextAt_of_frame {s' : State} (hc : c.At s j) (hv : v < 2 ^ 64)
    (hhead : s'.headerStart = (s.setNextAt c v).headerStart)
    (hframe : next s'.mem (s.slot j) = next (s.setNextAt c v).mem (s.slot j)) :
    s'.nextAt c = v := by
  cases c with
  | headerStart => exact hhead
  | block a =>
    obtain ⟨-, rfl⟩ := hc
    exact hframe.trans (next_setNext_same hv)

end Cursor.At

namespace Populate

variable {s : State} {c : Cursor} {j r : Nat}

theorem remaining_div (r : Nat) : HEADER_BLOCK_SIZE * r / HEADER_BLOCK_SIZE = r :=
  Nat.mul_div_cancel_left r (by decide)

theorem remaining_sub (hr : 1 ≤ r) (hfit : HEADER_BLOCK_SIZE * r < 2 ^ 64) :
    sizeSub (HEADER_BLOCK_SIZE * r) HEADER_BLOCK_SIZE = HEADER_BLOCK_SIZE * (r - 1) := by
  rw [HEADER_BLOCK_SIZE_eq] at *
  rw [sizeSub_of_le (by omega) hfit]
  omega

theorem address_eq (hfit : s.slot (j + 1) < 2 ^ 64) :
    sizeAdd s.pool (sizeMul HEADER_BLOCK_SIZE (toSize ((j : Int) + 1))) = s.slot (j + 1) := by
  unfold State.slot at hfit
  rw [HEADER_BLOCK_SIZE_eq] at *
  have hj : ((j : Int) + 1) = ((j + 1 : Nat) : Int) := by push_cast; rfl
  have hj64 : j + 1 < 2 ^ 64 := by omega
  have hmul : 1032 * (j + 1) < 2 ^ 64 := Nat.lt_of_le_of_lt (Nat.le_add_left _ _) hfit
  rw [hj, toSize_natCast hj64, sizeMul_of_lt hmul, sizeAdd_of_lt hfit]
  rfl

theorem body_link (hpool : 0 < s.pool) (hr : 1 < r) (hj : (j : Int) + 1 ≤ INT_MAX)
    (hfit : s.slot (j + r) ≤ 2 ^ 64) :
    body ⟨s, c, j, HEADER_BLOCK_SIZE * r⟩ = some ⟨s.setNextAt c (s.slot (j + 1)),
      .block (s.slot (j + 1)), (j + 1 : Nat), HEADER_BLOCK_SIZE * (r - 1)⟩ := by
  have hlt : s.slot (j + 1) < 2 ^ 64 ∧ HEADER_BLOCK_SIZE * r < 2 ^ 64 := by
    unfold State.slot at *; rw [HEADER_BLOCK_SIZE_eq] at *; omega
  have hadd : intAdd? (j : Int) 1 = some ((j : Int) + 1) :=
    intAdd?_eq_some rfl (by unfold INT_MIN; omega) hj
  simp only [body, remaining_div, gt_iff_lt, hr, if_true, hadd, address_eq hlt.1,
    remaining_sub (Nat.le_of_lt hr) hlt.2, Option.bind_eq_bind, Option.bind_some, Option.pure_def]
  rfl

theorem body_last (hj : (j : Int) + 1 ≤ INT_MAX) :
    body ⟨s, c, j, HEADER_BLOCK_SIZE * 1⟩ = some ⟨s.setNextAt c 0, .block 0, (j + 1 : Nat), 0⟩ := by
  have hadd : intAdd? (j : Int) 1 = some ((j : Int) + 1) :=
    intAdd?_eq_some rfl (by unfold INT_MIN; omega) hj
  simp only [body, remaining_div, gt_iff_lt, Nat.lt_irrefl, if_false, hadd,
    remaining_sub (r := 1) (by decide) (by decide), Option.bind_eq_bind, Option.bind_some,
    Option.pure_def]
  rfl

theorem body_overflow (hj : INT_MAX < (j : Int) + 1) :
    body ⟨s, c, j, HEADER_BLOCK_SIZE * r⟩ = none := by
  simp only [body, intAdd?_eq_none hj, Option.bind_eq_bind]
  split <;> rfl

theorem going_of_at (hs : 0 < s.pool) (hc : c.At s j) (n : Int) (k : Nat) :
    going ⟨s, c, n, k⟩ = true := by
  cases c with
  | headerStart => rfl
  | block a =>
    have ha : a ≠ 0 := by rw [hc.2]; unfold State.slot; omega
    simp [going, ha]

/-- The `r` iterations from slot `j` on link slots `j + 1, …, j + r - 1` behind the cursor and end
the list there; the links of the slots before the cursor stay. -/
theorem loop_spec (r : Nat) : ∀ (s : State) (c : Cursor) (j fuel : Nat), 0 < s.pool → c.At s j →
    1 ≤ r → ((j + r : Nat) : Int) ≤ INT_MAX → s.slot (j + r) ≤ 2 ^ 64 → r < fuel →
    ∃ s', whileLoop going body fuel ⟨s, c, j, HEADER_BLOCK_SIZE * r⟩ =
        some ⟨s', .block 0, (j + r : Nat), 0⟩ ∧
      Path (next s'.mem) (s'.nextAt c) ((List.range' (j + 1) (r - 1)).map s.slot) 0 ∧
      s'.pool = s.pool ∧ s'.poolSize = s.poolSize ∧ (0 < j → s'.headerStart = s.headerStart) ∧
      ∀ i, i < j → next s'.mem (s.slot i) = next s.mem (s.slot i) := by
  induction r with
  | zero => intro s c j fuel _ _ h1; omega
  | succ r ih =>
    intro s c j fuel hpool hc _ hint hfit hfuel
    obtain ⟨fuel, rfl⟩ : ∃ n, fuel = n + 1 := ⟨fuel - 1, by omega⟩
    have hgo := going_of_at hpool hc (j : Int) (HEADER_BLOCK_SIZE * (r + 1))
    by_cases hr : r = 0
    · subst hr
      refine ⟨s.setNextAt c 0, ?_, ?_, s.setNextAt_pool c 0, s.setNextAt_poolSize c 0,
        hc.headerStart_setNextAt, fun i => hc.next_setNextAt⟩
      · rw [whileLoop_step hgo (body_last (by omega)), whileLoop_exit (by omega) (by rfl)]
      · exact s.nextAt_setNextAt c (by decide)
    · set v := s.slot (j + 1) with hv
      have hfit' : s.slot (j + (r + 1)) ≤ 2 ^ 64 := hfit
      have hslots : (s.setNextAt c v).slot = s.slot := funext fun k => s.setNextAt_slot c v k
      have hv64 : v < 2 ^ 64 := by
        rw [hv]; unfold State.slot at *; rw [HEADER_BLOCK_SIZE_eq] at *; omega
      have hsum : j + (r + 1) = j + 1 + r := by omega
      obtain ⟨s', hw, hpath, hp, hps, hh, hfr⟩ := ih (s.setNextAt c v) (.block v) (j + 1) fuel
        (by rw [s.setNextAt_pool]; exact hpool) ⟨by omega, by rw [hslots]⟩ (by omega)
        (by rw [← hsum]; exact hint) (by rw [hslots, ← hsum]; exact hfit) (by omega)
      rw [hslots] at hpath hfr
      have hlink : s'.nextAt c = v :=
        hc.nextAt_of_frame hv64 (hh (by omega)) (hfr j (by omega))
      refine ⟨s', ?_, ?_, by rw [hp, s.setNextAt_pool], by rw [hps, s.setNextAt_poolSize],
        fun hj => by rw [hh (by omega), hc.headerStart_setNextAt hj], fun i hij => ?_⟩
      · rw [whileLoop_step hgo (body_link hpool (by omega) (by omega) hfit), hsum]
        exact hw
      · rw [hlink]
        have hr' : r = r - 1 + 1 := by omega
        rw [Nat.add_sub_cancel, hr', List.range'_succ]
        exact ⟨rfl, hpath⟩
      · rw [hfr i (by omega), hc.next_setNextAt hij]

/-- With `r` slots left at slot `j`, `block_count` overflows if `j + r` does not fit an `int`. -/
theorem loop_undefined (fuel : Nat) : ∀ (s : State) (c : Cursor) (j r : Nat), 0 < s.pool → c.At s j →
    1 ≤ r → (j : Int) ≤ INT_MAX → INT_MAX < ((j + r : Nat) : Int) → s.slot (j + r) ≤ 2 ^ 64 →
    whileLoop going body fuel ⟨s, c, j, HEADER_BLOCK_SIZE * r⟩ = none := by
  induction fuel with
  | zero => intro s c j r _ _ _ _ _ _; rw [whileLoop]
  | succ fuel ih =>
    intro s c j r hpool hc hr hj hover hfit
    have hgo := going_of_at hpool hc (j : Int) (HEADER_BLOCK_SIZE * r)
    by_cases hmax : (j : Int) + 1 ≤ INT_MAX
    · have hsum : j + r = j + 1 + (r - 1) := by omega
      rw [whileLoop_step hgo (body_link hpool (by omega) hmax hfit)]
      refine ih _ _ (j + 1) (r - 1) (by rw [State.setNextAt_pool]; exact hpool) ⟨by omega, ?_⟩
        (by omega) (by push_cast; exact hmax) (by rw [← hsum]; exact hover) ?_
      · rw [State.setNextAt_slot]
      · rw [State.setNextAt_slot, ← hsum]; exact hfit
    · exact whileLoop_undefined hgo (body_overflow (by omega))

end Populate

/-! ### The whole initialisation -/

/-- The slots of a pool of `total_size` bytes. -/
def slotCount (total_size : Nat) : Nat := total_size / HEADER_BLOCK_SIZE

theorem trueSize_eq {total_size : Nat} (h : total_size < 2 ^ 64) :
    trueSize total_size = HEADER_BLOCK_SIZE * slotCount total_size := by
  have hmod := Nat.mod_le total_size HEADER_BLOCK_SIZE
  have hdiv := Nat.div_add_mod total_size HEADER_BLOCK_SIZE
  rw [trueSize, sizeSub_of_le hmod h, slotCount]
  omega

variable {total_size base : Nat} {s : State}

theorem myAllocatorInit_eq (hs : s.pool = 0) :
    myAllocatorInit total_size (some base) s = populate (trueSize total_size) base s := by
  rw [myAllocatorInit, if_neg (by omega)]

theorem slot_map_le (h64 : total_size < 2 ^ 64) (hm : Mapped base (trueSize total_size)) :
    (s.map (trueSize total_size) base).slot (0 + slotCount total_size) ≤ 2 ^ 64 := by
  have := hm.fits
  rw [trueSize_eq h64, addressSpace] at this
  rw [Nat.zero_add]
  exact this

theorem slotCount_pos (h64 : total_size < 2 ^ 64) (hm : Mapped base (trueSize total_size)) :
    1 ≤ slotCount total_size := by
  have := hm.len_pos
  rw [trueSize_eq h64] at this
  exact Nat.pos_of_mul_pos_left this

theorem slotCount_lt (h64 : total_size < 2 ^ 64) : slotCount total_size < addressSpace :=
  Nat.lt_of_le_of_lt (Nat.div_le_self _ _) h64

/-- A mapped pool of `N < 2 ^ 31` slots starts with the slots `1, …, N - 1` on its list. -/
theorem init_spec (hs : s.pool = 0) (h64 : total_size < 2 ^ 64) (hm : Mapped base (trueSize total_size))
    (hint : slotCount total_size < 2 ^ 31) :
    ∃ s₀, myAllocatorInit total_size (some base) s = some s₀ ∧
      Wf s₀ ((List.range' 1 (slotCount total_size - 1)).map s₀.slot) ∧
      s₀.pool = base ∧ s₀.poolSize = HEADER_BLOCK_SIZE * slotCount total_size := by
  have hfit := slot_map_le (s := s) h64 hm
  have hint' : ((0 + slotCount total_size : Nat) : Int) ≤ INT_MAX := by
    rw [Nat.zero_add]; unfold INT_MAX; omega
  obtain ⟨s', hloop, hpath, hpool, -, -, -⟩ := Populate.loop_spec (slotCount total_size)
    (s.map (trueSize total_size) base) .headerStart 0 addressSpace hm.base_pos rfl
    (slotCount_pos h64 hm) hint' hfit (slotCount_lt h64)
  have hslot : s'.slot = (s.map (trueSize total_size) base).slot := by
    funext k; unfold State.slot; rw [hpool]
  rw [← hslot] at hpath hfit
  have hbase : s'.pool = base := hpool
  refine ⟨{ s' with poolSize := trueSize total_size }, ?_, ⟨?_, ?_, ⟨hpath, ?_⟩, ?_, ?_⟩, hbase,
    trueSize_eq h64⟩
  · rw [myAllocatorInit_eq hs, populate]
    rw [← trueSize_eq h64] at hloop
    simp only [Int.natCast_zero] at hloop
    rw [hloop]
    rfl
  · exact hbase ▸ hm.base_pos
  · exact hbase ▸ hm.fits
  · intro h0
    obtain ⟨k, -, hk⟩ := List.mem_map.1 h0
    have := hm.base_pos
    simp only [State.slot] at hk
    omega
  · refine List.pairwise_map.2 (List.Pairwise.imp ?_ List.pairwise_lt_range')
    intro i j hij
    unfold State.slot; rw [HEADER_BLOCK_SIZE_eq]; omega
  · intro a ha
    obtain ⟨k, hk, rfl⟩ := List.mem_map.1 ha
    have hk' := List.mem_range'_1.1 hk
    refine ⟨k, rfl, ?_⟩
    show _ ≤ trueSize total_size
    rw [trueSize_eq h64]
    exact Nat.mul_le_mul_left _ (by omega)

theorem init_undefined (hs : s.pool = 0) (h64 : total_size < 2 ^ 64)
    (hm : Mapped base (trueSize total_size)) (hint : 2 ^ 31 ≤ slotCount total_size) :
    myAllocatorInit total_size (some base) s = none := by
  have hloop := Populate.loop_undefined addressSpace (s.map (trueSize total_size) base) .headerStart 0
    (slotCount total_size) hm.base_pos rfl (slotCount_pos h64 hm) (by unfold INT_MAX; decide)
    (by rw [Nat.zero_add]; unfold INT_MAX; omega) (slot_map_le h64 hm)
  rw [← trueSize_eq h64] at hloop
  simp only [Int.natCast_zero] at hloop
  rw [myAllocatorInit_eq hs, populate, hloop]
  rfl

end OsExercises.FreeList
