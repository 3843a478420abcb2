import Mathlib.Logic.Function.Basic
import OsExercises.Lib.Chain

/-!
# The queue in memory

`myqueue` of `src/exercise09/task_1/myqueue.h`, a tail queue of `sys/queue.h`: the entries are linked from
`stqh_first` on, and `stqh_last` is the address of the link at the end. The operations are split into
their accesses to the shared list, so that what another thread sees in between can be stated. `Linked`
says which entries are in the queue.
-/

namespace OsExercises.SpinMutex

def NULL : Nat := 0

/-- The cell whose link is `stqh_first`; the other cells are the entries. -/
def head : Nat := 1

structure MyQueue where
  next : Nat → Nat
  value : Nat → Int
  /-- The cell whose link `stqh_last` points to. -/
  last : Nat
  allocated : Nat → Bool

/-- The other memory is arbitrary. -/
def myqueueInit (next : Nat → Nat) (value : Nat → Int) : MyQueue :=
  ⟨Function.update next head NULL, value, head, fun _ => false⟩

def myqueueIsEmpty (q : MyQueue) : Bool := q.next head = NULL

namespace MyQueue

/-! ### `myqueue_push` -/

/-- `malloc` has returned `entry`; `entry->value = value`. -/
def allocate (q : MyQueue) (entry : Nat) (value : Int) : MyQueue :=
  { q with
    value := Function.update q.value entry value
    allocated := Function.update q.allocated entry true }

/-- `entry->stqe_next = NULL`. -/
def terminate (q : MyQueue) (entry : Nat) : MyQueue :=
  { q with next := Function.update q.next entry NULL }

/-- `*stqh_last = entry`. -/
def link (q : MyQueue) (entry : Nat) : MyQueue :=
  { q with next := Function.update q.next q.last entry }

/-- `stqh_last = &entry->stqe_next`. -/
def extend (q : MyQueue) (entry : Nat) : MyQueue := { q with last := entry }

/-! ### `myqueue_pop` -/

/-- `stqh_first = stqh_first->stqe_next`. -/
def unlink (q : MyQueue) : MyQueue :=
  { q with next := Function.update q.next head (q.next (q.next head)) }

/-- `stqh_last = &stqh_first`. -/
def relink (q : MyQueue) : MyQueue := { q with last := head }

def free (q : MyQueue) (entry : Nat) : MyQueue :=
  { q with allocated := Function.update q.allocated entry false }

end MyQueue

/-! ### What is in the queue -/

/-- The entries `l` are linked from `stqh_first` on. -/
structure Linked (q : MyQueue) (l : List Nat) : Prop where
  chain : Chain q.next NULL head (head :: l)
  nodup : (head :: l).Nodup
  allocated : ∀ a ∈ l, q.allocated a = true

/-- `stqh_last` is the address of the last link. -/
def Tail (q : MyQueue) (l : List Nat) : Prop := q.last = l.getLastD head

namespace Linked

variable {q : MyQueue} {l : List Nat} {entry : Nat} {value : Int}

theorem init (next : Nat → Nat) (value : Nat → Int) : Linked (myqueueInit next value) [] := by
  refine ⟨chain_cons.mpr ⟨rfl, by decide, ?_⟩, List.nodup_singleton _, nofun⟩
  rw [chain_nil]
  show Function.update next head NULL head = NULL
  rw [Function.update_self]

theorem next_head (h : Linked q l) : q.next head = l.headD NULL :=
  (chain_cons.mp h.chain).2.2.head_eq

theorem isEmpty_iff (h : Linked q l) : myqueueIsEmpty q = true ↔ l = [] := by
  rw [myqueueIsEmpty, decide_eq_true_iff]
  exact (chain_cons.mp h.chain).2.2.eq_nil_iff.symm

theorem allocate (h : Linked q l) : Linked (q.allocate entry value) l := by
  refine ⟨h.chain, h.nodup, fun a ha => ?_⟩
  show Function.update q.allocated entry true a = true
  by_cases hae : a = entry
  · rw [hae, Function.update_self]
  · rw [Function.update_of_ne hae, h.allocated a ha]

theorem map_allocate (hentry : entry ∉ l) : l.map (q.allocate entry value).value = l.map q.value := by
  refine List.map_congr_left fun a ha => Function.update_of_ne ?_ ..
  rintro rfl
  exact hentry ha

theorem terminate (h : Linked q l) (hne : entry ≠ head) (hentry : entry ∉ l) :
    Linked (q.terminate entry) l := by
  refine ⟨h.chain.congr fun a ha => Function.update_of_ne ?_ .., h.nodup, h.allocated⟩
  rintro rfl
  rcases List.mem_cons.mp ha with rfl | ha
  · exact hne rfl
  · exact hentry ha

theorem link (h : Linked q l) (htail : Tail q l) (hnull : entry ≠ NULL) (hne : entry ≠ head)
    (hentry : entry ∉ l) (hnext : q.next entry = NULL) (hallocated : q.allocated entry = true) :
    Linked (q.link entry) (l ++ [entry]) := by
  have hcells : entry ∉ head :: l := by
    rw [List.mem_cons, not_or]
    exact ⟨hne, hentry⟩
  obtain ⟨init, hinit⟩ : ∃ init, head :: l = init ++ [q.last] := by
    refine ⟨(head :: l).dropLast, ?_⟩
    rw [htail, ← List.getLast_eq_getLastD]
    exact (List.dropLast_append_getLast (List.cons_ne_nil head l)).symm
  have hchain := h.chain
  have hnodup := h.nodup
  rw [hinit] at hchain hnodup hcells
  rw [List.nodup_append] at hnodup
  have hlast : q.last ≠ entry := by
    rintro heq
    exact hcells (List.mem_append_right _ (heq ▸ List.mem_singleton_self _))
  have hend : q.next q.last = NULL := (path_append_cons.mp hchain.1).2
  have hinserted : Chain (q.link entry).next NULL head (init ++ q.last :: entry :: []) := by
    refine hchain.insert (Function.update_self ..) ?_ hnull fun x hx => Function.update_of_ne ?_ ..
    · rw [hend, ← hnext]
      exact Function.update_of_ne hlast.symm ..
    · rintro rfl
      rw [List.append_nil] at hx
      exact hnodup.2.2 _ hx _ (List.mem_singleton_self _) rfl
  refine ⟨?_, ?_, ?_⟩
  · show Chain _ _ _ ((head :: l) ++ [entry])
    rw [hinit, List.append_assoc]
    exact hinserted
  · show ((head :: l) ++ [entry]).Nodup
    rw [List.nodup_append_comm]
    rw [← hinit] at hcells
    exact List.nodup_cons.mpr ⟨hcells, h.nodup⟩
  · intro a ha
    rcases List.mem_append.mp ha with ha | ha
    · exact h.allocated a ha
    · rw [List.mem_singleton.mp ha]
      exact hallocated

theorem extend (h : Linked q l) : Linked (q.extend entry) l := ⟨h.chain, h.nodup, h.allocated⟩

theorem unlink (h : Linked q (entry :: l)) : Linked q.unlink l := by
  obtain ⟨-, hhead, hfirst⟩ := chain_cons.mp h.chain
  obtain ⟨hfirst, -, hrest⟩ := chain_cons.mp hfirst
  obtain ⟨hnotMem, hnodup⟩ := List.nodup_cons.mp h.nodup
  rw [List.mem_cons, not_or] at hnotMem
  refine ⟨hrest.push ?_ hhead ?_, List.nodup_cons.mpr ⟨hnotMem.2, hnodup.of_cons⟩,
    fun a ha => h.allocated a (List.mem_cons_of_mem _ ha)⟩
  · show Function.update q.next head (q.next (q.next head)) head = q.next entry
    rw [Function.update_self, hfirst]
  · intro a ha
    refine Function.update_of_ne ?_ ..
    rintro rfl
    exact hnotMem.2 ha

theorem relink (h : Linked q l) : Linked q.relink l := ⟨h.chain, h.nodup, h.allocated⟩

theorem free (h : Linked q l) (hentry : entry ∉ l) : Linked (q.free entry) l := by
  refine ⟨h.chain, h.nodup, fun a ha => (Function.update_of_ne ?_ ..).trans (h.allocated a ha)⟩
  rintro rfl
  exact hentry ha

end Linked

theorem Tail.unlink {q : MyQueue} {entry : Nat} {l : List Nat} (h : Tail q (entry :: l))
    (hne : l ≠ []) : Tail q.unlink l := by
  obtain ⟨a, l, rfl⟩ := List.exists_cons_of_ne_nil hne
  exact h

end OsExercises.SpinMutex
