import OsExercises.Lib.ByteMemory
import OsExercises.Lib.CInt
import OsExercises.Lib.Loop

/-!
# The free-list allocator

`src/exercise10/task_3/free_list_allocator.c` (thread-local, no mutex) is modelled by the functions
on `State`; `src/exercise10/task_1/free_list_allocator.c` is the same code under
`free_list_alloc_mutex` and is modelled by the functions on `Global`, path by path with the unlock
each path makes or leaves out (`task_2/free_list_allocator.c` differs from it in a field name and an
unused counter only). Headers live in the byte memory, in front of the 1024 bytes handed out;
`header_start` is a static variable outside the pool. `none` is undefined behaviour, a loop that
does not end, or a lock that is never obtained.
-/

namespace OsExercises.FreeList

def BLOCK_SIZE : Nat := 1024

/-- `sizeof(header_t)`: one pointer. -/
def sizeofHeader : Nat := 8

def HEADER_BLOCK_SIZE : Nat := 1024 + sizeofHeader

/-- The static variables, and the memory the pool is mapped in. -/
structure State where
  mem : Mem
  pool : Nat
  poolSize : Nat
  /-- `header_start.next` -/
  headerStart : Nat

def State.initial (mem : Mem) : State := ⟨mem, 0, 0, 0⟩

/-- `block->next` -/
def next (m : Mem) (block : Nat) : Nat := m.load block 8

/-- `block->next = v` -/
def setNext (m : Mem) (block v : Nat) : Mem := m.store block 8 v

/-! ### Initialisation -/

/-- A `header_t*` during initialisation: the static `header_start` or a block of the pool
(`block 0` is `NULL`). -/
inductive Cursor where
  | headerStart
  | block (a : Nat)
deriving DecidableEq

/-- `cursor->next = v` -/
def State.setNextAt (s : State) : Cursor → Nat → State
  | .headerStart, v => { s with headerStart := v }
  | .block a, v => { s with mem := setNext s.mem a v }

/-- The state of the loop that populates the pool. -/
structure Populate where
  heap : State
  cursor : Cursor
  /-- `int block_count` -/
  blockCount : Int
  /-- `size_t remaining_space` -/
  remaining : Nat

def Populate.going (p : Populate) : Bool := p.cursor ≠ .block 0

/-- One iteration: `block_count + 1` and `block_count++` are `int` operations. -/
def Populate.body (p : Populate) : Option Populate := do
  let next ←
    if p.remaining / HEADER_BLOCK_SIZE > 1 then do
      let k ← intAdd? p.blockCount 1
      pure (sizeAdd p.heap.pool (sizeMul HEADER_BLOCK_SIZE (toSize k)))
    else pure 0
  let blockCount ← intAdd? p.blockCount 1
  pure { heap := p.heap.setNextAt p.cursor next
         cursor := .block next
         blockCount := blockCount
         remaining := sizeSub p.remaining HEADER_BLOCK_SIZE }

/-- `true_size`: the bytes of the whole slots that fit into `total_size`. -/
def trueSize (total_size : Nat) : Nat := sizeSub total_size (total_size % HEADER_BLOCK_SIZE)

/-- After `pool = mmap(..)` and `header_start.next = pool`. -/
def State.map (true_size base : Nat) (s : State) : State :=
  { s with mem := s.mem.clear base true_size, pool := base, headerStart := base }

/-- The rest of the initialisation once the pool is mapped at `base`. -/
def populate (true_size base : Nat) (s : State) : Option State := do
  let p ← whileLoop Populate.going Populate.body addressSpace
    ⟨s.map true_size base, .headerStart, 0, true_size⟩
  pure { p.heap with poolSize := true_size }

/-- `mapped` is what `mmap` returns, `none` for `MAP_FAILED`. -/
def myAllocatorInit (total_size : Nat) (mapped : Option Nat) (s : State) : Option State :=
  if s.pool ≠ 0 then some s
  else
    match mapped with
    | none => some s
    | some base => populate (trueSize total_size) base s

/-- `unmapped` says whether `munmap` succeeds. -/
def myAllocatorDestroy (unmapped : Bool) (s : State) : State :=
  if s.pool = 0 then s
  else if !unmapped then s
  else { s with pool := 0, poolSize := 0, headerStart := 0 }

/-! ### Allocation and release -/

/-- The new state and the returned pointer. -/
def myMalloc (size : Nat) (s : State) : State × Nat :=
  if s.pool = 0 then (s, 0)
  else if size > BLOCK_SIZE then (s, 0)
  else if s.headerStart = 0 then (s, 0)
  else
    let block := s.headerStart
    ({ s with headerStart := next s.mem block }, sizeAdd block sizeofHeader)

/-- `while (header_cursor->next && header_cursor->next <= header_to_free)` -/
def findPlace (m : Mem) (header_to_free header_cursor : Nat) : Option Nat :=
  whileLoop (fun c => next m c ≠ 0 ∧ next m c ≤ header_to_free) (fun c => some (next m c))
    addressSpace header_cursor

def myFree (ptr : Nat) (s : State) : Option State :=
  if s.pool = 0 then some s
  else
    let header_to_free := sizeSub ptr sizeofHeader
    if s.headerStart = 0 ∨ s.headerStart > header_to_free then
      some { s with mem := setNext s.mem header_to_free s.headerStart, headerStart := header_to_free }
    else do
      let header_cursor ← findPlace s.mem header_to_free s.headerStart
      -- trying to free a free block
      if header_cursor = header_to_free then some s
      else
        let m := setNext s.mem header_to_free (next s.mem header_cursor)
        some { s with mem := setNext m header_cursor header_to_free }

/-! ### The variant with the mutex -/

/-- The static variables of the global variant; `mutex` says whether `free_list_alloc_mutex` is
held. -/
structure Global where
  heap : State
  mutex : Bool

namespace Global

/-- `pthread_mutex_lock`, not enabled while the mutex is held. -/
def lock (g : Global) : Option Global := if g.mutex then none else some { g with mutex := true }

def unlock (g : Global) : Global := { g with mutex := false }

/-! Each function locks first; what follows is its body, from the locked mutex to its return. -/

def myAllocatorInit (total_size : Nat) (mapped : Option Nat) (g : Global) : Option Global :=
  if g.heap.pool ≠ 0 then some g.unlock
  else
    match mapped with
    | none => some g.unlock
    | some base => do
      let s ← populate (trueSize total_size) base g.heap
      some { g with heap := s }.unlock

def myAllocatorDestroy (unmapped : Bool) (g : Global) : Global :=
  if g.heap.pool = 0 then g.unlock
  else if !unmapped then g.unlock
  else { g with heap := { g.heap with pool := 0, poolSize := 0, headerStart := 0 } }.unlock

def myMalloc (size : Nat) (g : Global) : Global × Nat :=
  if g.heap.pool = 0 then (g.unlock, 0)
  else if size > BLOCK_SIZE then (g.unlock, 0)
  else if g.heap.headerStart = 0 then (g.unlock, 0)
  else
    let block := g.heap.headerStart
    ({ g with heap := { g.heap with headerStart := next g.heap.mem block } }.unlock,
      sizeAdd block sizeofHeader)

def myFree (ptr : Nat) (g : Global) : Option Global :=
  let s := g.heap
  if s.pool = 0 then some g.unlock
  else
    let header_to_free := sizeSub ptr sizeofHeader
    if s.headerStart = 0 ∨ s.headerStart > header_to_free then
      let s := { s with mem := setNext s.mem header_to_free s.headerStart, headerStart := header_to_free }
      some { g with heap := s }.unlock
    else do
      let header_cursor ← findPlace s.mem header_to_free s.headerStart
      -- this path returns without unlocking
      if header_cursor = header_to_free then some g
      else
        let m := setNext s.mem header_to_free (next s.mem header_cursor)
        some { g with heap := { s with mem := setNext m header_cursor header_to_free } }.unlock

end Global

/-! ### The two variants do the same to the heap -/

theorem Global.myAllocatorInit_heap (total_size : Nat) (mapped : Option Nat) (g : Global) :
    (Global.myAllocatorInit total_size mapped g).map Global.heap =
      FreeList.myAllocatorInit total_size mapped g.heap := by
  unfold Global.myAllocatorInit FreeList.myAllocatorInit
  split
  · rfl
  · cases mapped with
    | none => rfl
    | some base => cases h : populate (trueSize total_size) base g.heap <;> simp [h, unlock]

theorem Global.myMalloc_heap (size : Nat) (g : Global) :
    ((Global.myMalloc size g).1.heap, (Global.myMalloc size g).2) = FreeList.myMalloc size g.heap := by
  unfold Global.myMalloc FreeList.myMalloc
  split
  · rfl
  · split
    · rfl
    · split <;> rfl

theorem Global.myFree_heap (ptr : Nat) (g : Global) :
    (Global.myFree ptr g).map Global.heap = FreeList.myFree ptr g.heap := by
  unfold Global.myFree FreeList.myFree
  by_cases hp : g.heap.pool = 0
  · simp [hp, unlock]
  by_cases hh : g.heap.headerStart = 0 ∨ g.heap.headerStart > sizeSub ptr sizeofHeader
  · simp [hp, hh, unlock]
  cases hf : findPlace g.heap.mem (sizeSub ptr sizeofHeader) g.heap.headerStart with
  | none => simp [hp, hh, hf]
  | some c => by_cases hc : c = sizeSub ptr sizeofHeader <;> simp [hp, hh, hf, hc, unlock]

end OsExercises.FreeList
