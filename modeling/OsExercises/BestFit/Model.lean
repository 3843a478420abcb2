import OsExercises.Lib.ByteMemory
import OsExercises.Lib.CInt
import OsExercises.Lib.Loop

/-!
# The best-fit allocator

`src/exercise10/task_2/best_fit_allocator.c`. The pool is one list of blocks, each with a 32-byte
header in front of its payload; the headers lie in the byte memory and are read and written field by
field (`Field`). `header_start` is a static variable outside the pool. Every function takes
`free_list_alloc_mutex` first and gives it back on each path. `none` is a loop that does not end or
a lock that is never obtained. The variable `offset` of `my_malloc` is never read and left out.
-/

namespace OsExercises.BestFit

def sizeofHeader : Nat := 32

/-- The members of `header_t`. -/
inductive Field where
  | isFree
  | size
  | next
  | prev
deriving DecidableEq

def Field.offset : Field → Nat
  | isFree => 0
  | size => 8
  | next => 16
  | prev => 24

def Field.width : Field → Nat
  | isFree => 1
  | _ => 8

/-- `block->f` -/
def get (f : Field) (m : Mem) (block : Nat) : Nat := m.load (block + f.offset) f.width

/-- `block->f = v` -/
def set (f : Field) (m : Mem) (block v : Nat) : Mem := m.store (block + f.offset) f.width v

def isFree (m : Mem) (block : Nat) : Bool := get .isFree m block ≠ 0
def size (m : Mem) (block : Nat) : Nat := get .size m block
def next (m : Mem) (block : Nat) : Nat := get .next m block
def prev (m : Mem) (block : Nat) : Nat := get .prev m block

def setIsFree (m : Mem) (block : Nat) (v : Bool) : Mem := set .isFree m block v.toNat
def setSize (m : Mem) (block v : Nat) : Mem := set .size m block v
def setNext (m : Mem) (block v : Nat) : Mem := set .next m block v
def setPrev (m : Mem) (block v : Nat) : Mem := set .prev m block v

@[ext] structure Header where
  isFree : Bool
  size : Nat
  next : Nat
  prev : Nat
deriving DecidableEq

/-- The static variables, and the memory the pool is mapped in. -/
structure State where
  mem : Mem
  pool : Nat
  poolSize : Nat
  headerStart : Header
  /-- Whether `free_list_alloc_mutex` is held. -/
  mutex : Bool

namespace State

/-- The static variables at program start. -/
def initial (mem : Mem) : State := ⟨mem, 0, 0, ⟨false, 0, 0, 0⟩, false⟩

/-- `pthread_mutex_lock`, not enabled while the mutex is held. -/
def lock (s : State) : Option State := if s.mutex then none else some { s with mutex := true }

def unlock (s : State) : State := { s with mutex := false }

end State

/-! ### Initialisation -/

/-- The header of the block that spans the new pool. -/
def wholePool (total_size base : Nat) (m : Mem) : Mem :=
  let m := setNext (m.clear base total_size) base 0
  let m := setPrev m base 0
  let m := setSize m base total_size
  setIsFree m base true

/-- `mapped` is what `mmap` returns, `none` for `MAP_FAILED`. -/
def myAllocatorInit (total_size : Nat) (mapped : Option Nat) (s : State) : Option State := do
  let s ← s.lock
  if s.pool ≠ 0 then some s.unlock
  else
    match mapped with
    | none => some { s with pool := 0 }.unlock
    | some base =>
      some { s with
        mem := wholePool total_size base s.mem
        pool := base
        poolSize := total_size
        headerStart := ⟨false, 0, base, 0⟩ }.unlock

/-- `unmapped` says whether `munmap` succeeds. -/
def myAllocatorDestroy (unmapped : Bool) (s : State) : Option State := do
  let s ← s.lock
  if s.pool = 0 then some s.unlock
  else if !unmapped then some s.unlock
  else
    some { s with pool := 0, poolSize := 0, headerStart := { s.headerStart with next := 0 } }.unlock

/-! ### Allocation -/

/-- `cursor->is_free && cursor->size >= block_size` -/
def suits (m : Mem) (block_size cursor : Nat) : Bool := isFree m cursor && block_size ≤ size m cursor

/-- `while (cursor)`, left by the `break` at the first block that suits. -/
def search (m : Mem) (block_size cursor : Nat) : Option Nat :=
  whileLoop (fun c => c ≠ 0 && !suits m block_size c) (fun c => some (next m c)) addressSpace cursor

/-- The rest of the block becomes a block of its own; `cursor->next` is read anew in each store. -/
def split (m : Mem) (cursor block_size : Nat) : Mem :=
  let next_buf := next m cursor
  let m := setNext m cursor (sizeAdd cursor block_size)
  let m := setNext m (next m cursor) next_buf
  let m := setPrev m (next m cursor) cursor
  let m := setIsFree m (next m cursor) true
  setSize m (next m cursor) (sizeSub (size m cursor) block_size)

def takeBlock (m : Mem) (cursor block_size : Nat) : Mem :=
  if size m cursor < sizeAdd block_size sizeofHeader then
    setSize (setIsFree m cursor false) cursor (size m cursor)
  else
    setSize (setIsFree (split m cursor block_size) cursor false) cursor block_size

/-- The new state and the returned pointer. -/
def myMalloc (size : Nat) (s : State) : Option (State × Nat) := do
  let block_size := sizeAdd size sizeofHeader
  let s ← s.lock
  if s.pool = 0 ∨ size = 0 then some (s.unlock, 0)
  else if s.headerStart.next = 0 then some (s.unlock, 0)
  else do
    let cursor ← search s.mem block_size s.headerStart.next
    if cursor = 0 then some (s.unlock, 0)
    else
      some ({ s with mem := takeBlock s.mem cursor block_size }.unlock, sizeAdd cursor sizeofHeader)

/-! ### Release -/

/-- `while (cursor->link && cursor->link->is_free)`: adds up the sizes of the free blocks behind
`cursor`; the last one of them and the sum. `merge_size` is an `int`, a `size_t` is added to it. -/
def absorb (link : Nat → Nat) (m : Mem) (cursor : Nat) (merge_size : Int) : Option (Nat × Int) :=
  whileLoop (fun c => link c.1 ≠ 0 && isFree m (link c.1))
    (fun c => some (link c.1, toInt (sizeAdd (toSize c.2) (size m (link c.1)))))
    addressSpace (cursor, merge_size)

/-- The stores of `my_free` to the first block of the merged run and the block behind the run. -/
def joinBlocks (m : Mem) (cursor next_buf : Nat) (merge_size : Int) : Mem :=
  let m := setNext m cursor next_buf
  let m := if next m cursor ≠ 0 then setPrev m next_buf cursor else m
  setSize m cursor (toSize merge_size)

def myFree (ptr : Nat) (s : State) : Option State := do
  let s ← s.lock
  if s.pool = 0 then some s.unlock
  else
    let header_to_free := sizeSub ptr sizeofHeader
    if isFree s.mem header_to_free then some s.unlock
    else do
      let m := setIsFree s.mem header_to_free true
      let merge_size := toInt (size m header_to_free)
      let (cursor, merge_size) ← absorb (next m) m header_to_free merge_size
      let next_buf := next m cursor
      let (cursor, merge_size) ← absorb (prev m) m header_to_free merge_size
      some { s with mem := joinBlocks m cursor next_buf merge_size }.unlock

/-! ### Reading back a header -/

theorem get_set_same (f : Field) (m : Mem) (b v : Nat) :
    get f (set f m b v) b = v % 256 ^ f.width := Mem.load_store_same ..

theorem get_set_ne {f g : Field} (h : f ≠ g) (m : Mem) (b v : Nat) :
    get g (set f m b v) b = get g m b := by
  refine Mem.load_store_apart ?_
  cases f <;> cases g <;> first | exact absurd rfl h | (simp only [Field.offset, Field.width]; omega)

theorem get_set_apart {f g : Field} {m : Mem} {b c v : Nat} (h : b + 32 ≤ c ∨ c + 32 ≤ b) :
    get g (set f m b v) c = get g m c := by
  refine Mem.load_store_apart ?_
  cases f <;> cases g <;> simp only [Field.offset, Field.width] <;> omega

def header (m : Mem) (b : Nat) : Header := ⟨isFree m b, size m b, next m b, prev m b⟩

theorem header_setIsFree (m : Mem) (b : Nat) (v : Bool) :
    header (setIsFree m b v) b = { header m b with isFree := v } := by
  refine Header.ext ?_ (get_set_ne (by nofun) ..) (get_set_ne (by nofun) ..) (get_set_ne (by nofun) ..)
  show decide (get .isFree (set .isFree m b v.toNat) b ≠ 0) = v
  rw [get_set_same]
  cases v <;> rfl

theorem header_setSize {m : Mem} {b v : Nat} (h : v < 2 ^ 64) :
    header (setSize m b v) b = { header m b with size := v } := by
  refine Header.ext ?_ ?_ (get_set_ne (by nofun) ..) (get_set_ne (by nofun) ..)
  · exact congrArg (fun n => decide (n ≠ 0)) (get_set_ne (by nofun) ..)
  · exact (get_set_same ..).trans (Nat.mod_eq_of_lt h)

theorem header_setNext {m : Mem} {b v : Nat} (h : v < 2 ^ 64) :
    header (setNext m b v) b = { header m b with next := v } := by
  refine Header.ext ?_ (get_set_ne (by nofun) ..) ?_ (get_set_ne (by nofun) ..)
  · exact congrArg (fun n => decide (n ≠ 0)) (get_set_ne (by nofun) ..)
  · exact (get_set_same ..).trans (Nat.mod_eq_of_lt h)

theorem header_setPrev {m : Mem} {b v : Nat} (h : v < 2 ^ 64) :
    header (setPrev m b v) b = { header m b with prev := v } := by
  refine Header.ext ?_ (get_set_ne (by nofun) ..) (get_set_ne (by nofun) ..) ?_
  · exact congrArg (fun n => decide (n ≠ 0)) (get_set_ne (by nofun) ..)
  · exact (get_set_same ..).trans (Nat.mod_eq_of_lt h)

theorem header_set_apart {f : Field} {m : Mem} {b c v : Nat} (h : b + 32 ≤ c ∨ c + 32 ≤ b) :
    header (set f m b v) c = header m c := by
  simp only [header, isFree, size, next, prev, get_set_apart h]

theorem header_poke_apart {m : Mem} {a c : Nat} {x : UInt8} (h : a < c ∨ c + 32 ≤ a) :
    header (m.poke a x) c = header m c := by
  have hget : ∀ f, get f (m.poke a x) c = get f m c := by
    intro f
    refine Mem.load_poke_apart ?_
    cases f <;> simp only [Field.offset, Field.width] <;> omega
  simp only [header, isFree, size, next, prev, hget]

theorem sizeAdd_header {x : Nat} (h : x + 32 < 2 ^ 64) : sizeAdd x sizeofHeader = x + 32 :=
  sizeAdd_of_lt h

theorem size_lt (m : Mem) (b : Nat) : size m b < 2 ^ 64 := Mem.load_lt ..

theorem next_lt (m : Mem) (b : Nat) : next m b < 2 ^ 64 := Mem.load_lt ..

end OsExercises.BestFit
