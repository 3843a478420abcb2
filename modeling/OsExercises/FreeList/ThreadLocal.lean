import OsExercises.FreeList.SlotSet
import OsExercises.Lib.AccessProgram

/-!
# The thread-local free list, access by access

The functions of `src/exercise10/task_3/free_list_allocator.c` as programs over the memory that all threads
share. The static variables are `_Thread_local`, so only what lies behind a `header_t*` into the pool is an
access. Each program does to its own variables and to the memory what the function of `Model` does to a
`State` (`run_myAllocatorInit`, `run_myMalloc`, `run_myFree`).
-/

namespace OsExercises.FreeList.ThreadLocal
open MemProgram

/-- The static variables of a thread. -/
structure Statics where
  pool : Nat
  poolSize : Nat
  headerStart : Nat
deriving DecidableEq

abbrev Statics.heap (v : Statics) (m : Mem) : State := ⟨m, v.pool, v.poolSize, v.headerStart⟩

/-- The variables of the thread and the memory all threads share. -/
def parts (s : State) : Statics × Mem := (⟨s.pool, s.poolSize, s.headerStart⟩, s.mem)

/-- `block->next` -/
def loadNext (block : Nat) : MemProgram Nat := .access (.load block 8) .done

/-- `block->next = v` -/
def storeNext (block v : Nat) : MemProgram Unit := .access (.store block 8 v) fun _ => .done ()

/-! ### Initialisation -/

/-- The local variables of `my_allocator_init`. -/
structure Populating where
  statics : Statics
  cursor : Cursor
  /-- `int block_count` -/
  blockCount : Int
  /-- `size_t remaining_space` -/
  remaining : Nat

def Populating.going (p : Populating) : Bool := p.cursor ≠ .block 0

/-- What the header at the cursor is to point to. -/
def Populating.link (p : Populating) : Option Nat :=
  if p.remaining / HEADER_BLOCK_SIZE > 1 then do
    let k ← intAdd? p.blockCount 1
    pure (sizeAdd p.statics.pool (sizeMul HEADER_BLOCK_SIZE (toSize k)))
  else pure 0

/-- `cursor->next = next` -/
def Populating.storeNext (p : Populating) (next : Nat) : MemProgram Statics :=
  match p.cursor with
  | .headerStart => pure { p.statics with headerStart := next }
  | .block a => do
    ThreadLocal.storeNext a next
    pure p.statics

/-- `cursor->next` -/
def Populating.loadNext (p : Populating) (v : Statics) : MemProgram Nat :=
  match p.cursor with
  | .headerStart => pure v.headerStart
  | .block a => ThreadLocal.loadNext a

def Populating.body (p : Populating) : MemProgram Populating := do
  let next ← ofOption p.link
  let v ← p.storeNext next
  let cursor ← p.loadNext v
  let blockCount ← ofOption (intAdd? p.blockCount 1)
  pure ⟨v, .block cursor, blockCount, sizeSub p.remaining HEADER_BLOCK_SIZE⟩

def mapPages (base size : Nat) : MemProgram Unit := .access (.clear base size) fun _ => .done ()

def populate (true_size base : Nat) (v : Statics) : MemProgram Statics := do
  mapPages base true_size
  let p ← MemProgram.whileLoop (fun p => pure p.going) Populating.body addressSpace
    ⟨{ v with pool := base, headerStart := base }, .headerStart, 0, true_size⟩
  pure { p.statics with poolSize := true_size }

def myAllocatorInit (total_size : Nat) (mapped : Option Nat) (v : Statics) : MemProgram Statics :=
  if v.pool ≠ 0 then pure v
  else
    match mapped with
    | none => pure v
    | some base => populate (trueSize total_size) base v

def myAllocatorDestroy (unmapped : Bool) (v : Statics) : Statics :=
  if v.pool = 0 then v
  else if !unmapped then v
  else ⟨0, 0, 0⟩

/-! ### Allocation and release -/

def myMalloc (size : Nat) (v : Statics) : MemProgram (Statics × Nat) :=
  if v.pool = 0 then pure (v, 0)
  else if size > BLOCK_SIZE then pure (v, 0)
  else if v.headerStart = 0 then pure (v, 0)
  else do
    let block := v.headerStart
    let next ← loadNext block
    pure ({ v with headerStart := next }, sizeAdd block sizeofHeader)

/-- `header_cursor->next && header_cursor->next <= header_to_free` -/
def behind (header_to_free header_cursor : Nat) : MemProgram Bool := do
  let next ← loadNext header_cursor
  if next ≠ 0 then do
    -- read again for the comparison
    let next ← loadNext header_cursor
    pure (decide (next ≤ header_to_free))
  else pure false

def findPlace (header_to_free header_cursor : Nat) : MemProgram Nat :=
  MemProgram.whileLoop (behind header_to_free) loadNext addressSpace header_cursor

def myFree (ptr : Nat) (v : Statics) : MemProgram Statics :=
  if v.pool = 0 then pure v
  else
    let header_to_free := sizeSub ptr sizeofHeader
    if v.headerStart = 0 ∨ v.headerStart > header_to_free then do
      storeNext header_to_free v.headerStart
      pure { v with headerStart := header_to_free }
    else do
      let header_cursor ← findPlace header_to_free v.headerStart
      -- trying to free a free block
      if header_cursor = header_to_free then pure v
      else do
        let next ← loadNext header_cursor
        storeNext header_to_free next
        storeNext header_cursor header_to_free
        pure v

/-! ### All accesses in a row -/

variable {v : Statics} {m : Mem}

theorem run_loadNext (block : Nat) (m : Mem) : (loadNext block).run m = some (next m block, m) := rfl

theorem run_storeNext (block w : Nat) (m : Mem) :
    (storeNext block w).run m = some ((), setNext m block w) := rfl

theorem run_myMalloc {size p : Nat} {s : State} (h : FreeList.myMalloc size (v.heap m) = (s, p)) :
    (myMalloc size v).run m = some (((parts s).1, p), (parts s).2) := by
  unfold FreeList.myMalloc at h
  unfold myMalloc
  by_cases hpool : v.pool = 0
  · rw [if_pos hpool] at h ⊢
    cases h
    rfl
  by_cases hsize : size > BLOCK_SIZE
  · rw [if_neg hpool, if_pos hsize] at h ⊢
    cases h
    rfl
  by_cases hstart : v.headerStart = 0
  · rw [if_neg hpool, if_neg hsize, if_pos hstart] at h ⊢
    cases h
    rfl
  · rw [if_neg hpool, if_neg hsize, if_neg hstart] at h ⊢
    cases h
    rfl

theorem run_behind (header_to_free header_cursor : Nat) (m : Mem) : (behind header_to_free header_cursor).run m =
    some (decide (next m header_cursor ≠ 0 ∧ next m header_cursor ≤ header_to_free), m) := by
  simp only [behind, bind_eq, run_bind, run_loadNext, Option.bind_some]
  by_cases hnext : next m header_cursor = 0
  · rw [if_neg (not_not.mpr hnext), decide_eq_false fun h => h.1 hnext]
    rfl
  · rw [if_pos hnext, run_bind, run_loadNext, Option.bind_some]
    simp only [hnext, ne_eq, not_false_eq_true, true_and]
    rfl

theorem run_findPlace (header_to_free header_cursor : Nat) (m : Mem) :
    (findPlace header_to_free header_cursor).run m =
      (FreeList.findPlace m header_to_free header_cursor).map fun c => (c, m) :=
  run_whileLoop (g := fun c => (c, m)) (fun c => run_behind header_to_free c m) (fun _ _ => rfl) addressSpace
    header_cursor

theorem run_myFree (ptr : Nat) (v : Statics) (m : Mem) :
    (myFree ptr v).run m = (FreeList.myFree ptr (v.heap m)).map parts := by
  unfold myFree FreeList.myFree
  by_cases hpool : v.pool = 0
  · rw [if_pos hpool, if_pos hpool]
    rfl
  rw [if_neg hpool, if_neg hpool]
  by_cases hfront : v.headerStart = 0 ∨ v.headerStart > sizeSub ptr sizeofHeader
  · simp only [if_pos hfront]
    rfl
  simp only [if_neg hfront, bind_eq, run_bind, run_findPlace]
  cases FreeList.findPlace m (sizeSub ptr sizeofHeader) v.headerStart with
  | none => rfl
  | some c =>
    simp only [Option.map_some, Option.bind_some, Option.bind_eq_bind]
    split <;> rfl

/-! The loop that populates the pool: a store to a header is read back at once. -/

def populating (p : Populate) : Populating × Mem :=
  (⟨(parts p.heap).1, p.cursor, p.blockCount, p.remaining⟩, p.heap.mem)

theorem link_lt {p : Populating} {next : Nat} (h : p.link = some next) : next < 2 ^ 64 := by
  unfold Populating.link at h
  split at h
  · obtain ⟨k, -, h⟩ := Option.bind_eq_some_iff.mp h
    cases h
    exact Nat.mod_lt _ (Nat.two_pow_pos 64)
  · cases h
    decide

theorem Populating.run_storeNext (p : Populate) (next : Nat) :
    ((populating p).1.storeNext next).run p.heap.mem = some (parts (p.heap.setNextAt p.cursor next)) := by
  obtain ⟨heap, cursor, blockCount, remaining⟩ := p
  cases cursor <;> rfl

theorem Populating.run_loadNext (p : Populating) (s : State) :
    (p.loadNext (parts s).1).run (parts s).2 = some (s.nextAt p.cursor, s.mem) := by
  obtain ⟨v, cursor, blockCount, remaining⟩ := p
  cases cursor <;> rfl

theorem body_eq (p : Populate) : p.body = (populating p).1.link.bind fun next =>
    (intAdd? p.blockCount 1).map fun k =>
      ⟨p.heap.setNextAt p.cursor next, .block next, k, sizeSub p.remaining HEADER_BLOCK_SIZE⟩ := by
  have hlink : (populating p).1.link = if p.remaining / HEADER_BLOCK_SIZE > 1 then
      (intAdd? p.blockCount 1).bind fun k => some (sizeAdd p.heap.pool (sizeMul HEADER_BLOCK_SIZE (toSize k)))
    else some 0 := rfl
  rw [hlink, Populate.body]
  by_cases hmore : p.remaining / HEADER_BLOCK_SIZE > 1
  · simp only [if_pos hmore]
    cases intAdd? p.blockCount 1 <;> rfl
  · simp only [if_neg hmore]
    cases intAdd? p.blockCount 1 <;> rfl

theorem run_body (p : Populate) :
    (populating p).1.body.run (populating p).2 = p.body.map populating := by
  rw [body_eq]
  simp only [Populating.body, bind_eq, run_bind, run_ofOption]
  cases hlink : (populating p).1.link with
  | none => rfl
  | some next =>
    have hstore : ((populating p).1.storeNext next).run (populating p).2 = _ := Populating.run_storeNext p next
    -- what has just been stored is read back
    have hload := (populating p).1.run_loadNext (p.heap.setNextAt p.cursor next)
    have hback : (p.heap.setNextAt p.cursor next).nextAt (populating p).1.cursor = next :=
      State.nextAt_setNextAt _ _ (link_lt hlink)
    rw [hback] at hload
    rw [Option.map_some, Option.bind_some, hstore, Option.bind_some, hload, Option.bind_some, Option.bind_some]
    cases hcount : intAdd? p.blockCount 1 with
    | none =>
      simp only [populating, hcount]
      rfl
    | some k =>
      simp only [populating, hcount]
      rfl

theorem run_populating (fuel : Nat) (p : Populate) :
    (MemProgram.whileLoop (fun p => pure p.going) Populating.body fuel (populating p).1).run (populating p).2 =
      (whileLoop Populate.going Populate.body fuel p).map populating :=
  run_whileLoop (fun _ => rfl) (fun p _ => run_body p) fuel p

theorem run_myAllocatorInit (total_size : Nat) (mapped : Option Nat) (v : Statics) (m : Mem) :
    (myAllocatorInit total_size mapped v).run m =
      (FreeList.myAllocatorInit total_size mapped (v.heap m)).map parts := by
  unfold myAllocatorInit FreeList.myAllocatorInit
  by_cases hpool : v.pool ≠ 0
  · rw [if_pos hpool, if_pos hpool]
    rfl
  rw [if_neg hpool, if_neg hpool]
  cases mapped with
  | none => rfl
  | some base =>
    have hloop := run_populating addressSpace
      ⟨(v.heap m).map (trueSize total_size) base, .headerStart, 0, trueSize total_size⟩
    have hpages : (mapPages base (trueSize total_size)).run m = some ((), m.clear base (trueSize total_size)) := rfl
    simp only [populate, FreeList.populate, bind_eq, run_bind, hpages, Option.bind_some, Option.bind_eq_bind]
    refine (congrArg (Option.bind · _) hloop).trans ?_
    cases whileLoop Populate.going Populate.body addressSpace _ with
    | none => rfl
    | some p => rfl

end OsExercises.FreeList.ThreadLocal
