import OsExercises.Lib.Channel
import OsExercises.Lib.Simulation
import OsExercises.SpinMutex.MyQueue

/-!
# The queue in memory is first-in first-out

Any sequence of calls of `myqueue_push`, `myqueue_is_empty` and `myqueue_pop`, each of them whole, as
they are under a mutex. The list in memory answers like a channel (`refinesChannel`), whichever memory
`malloc` returns, popped entries included, and what it has allocated is what is in the queue.
-/

namespace OsExercises.SpinMutex
open Transition

variable {T : Type*} {q : MyQueue} {l : List Nat} {entry : Nat} {value : Int}

def myqueuePush (q : MyQueue) (value : Int) (entry : Nat) : MyQueue :=
  (((q.allocate entry value).terminate entry).link entry).extend entry

/-- `none` if the assertion fails that the queue is not empty. -/
def myqueuePop (q : MyQueue) : Option (Int × MyQueue) :=
  if myqueueIsEmpty q then none
  else
    let entry := q.next head
    let value := q.value entry
    let q := q.unlink
    let q := if q.next head = NULL then q.relink else q
    some (value, q.free entry)

/-- A call of `t`, with what it is answered. -/
inductive Call (T : Type*) where
  /-- `entry` is what `malloc` returns. -/
  | push (value : Int) (entry : Nat)
  | isEmpty (answer : Bool)
  | pop (t : T) (value : Int)

namespace Call

def inMemory (q : MyQueue) : Call T → Option MyQueue
  | .push value entry => some (myqueuePush q value entry)
  | .isEmpty answer => if myqueueIsEmpty q = answer then some q else none
  | .pop _ value => (myqueuePop q).bind fun r => if r.1 = value then some r.2 else none

def inChannel (q : Channel T Int) : Call T → Option (Channel T Int)
  | .push value _ => some (q.send value)
  | .isEmpty answer => if q.queue.isEmpty = answer then some q else none
  | .pop t value => (q.receive t).bind fun r => if r.1 = value then some r.2 else none

/-- `malloc` returns memory that is not in use. -/
def Allocates (q : MyQueue) : Call T → Prop
  | .push _ entry => entry ≠ NULL ∧ entry ≠ head ∧ q.allocated entry = false
  | _ => True

instance (q : MyQueue) : (call : Call T) → Decidable (Allocates q call)
  | .push _ _ => inferInstanceAs (Decidable (_ ∧ _ ∧ _))
  | .isEmpty _ => inferInstanceAs (Decidable True)
  | .pop _ _ => inferInstanceAs (Decidable True)

end Call

/-! ### One call -/

/-- The entries `l` are in the queue, and no others are in use. -/
structure Holds (q : MyQueue) (l : List Nat) : Prop extends Linked q l where
  tail : Tail q l
  used : ∀ a, q.allocated a = true → a ∈ l

theorem Holds.init (next : Nat → Nat) (value : Nat → Int) : Holds (myqueueInit next value) [] :=
  ⟨Linked.init next value, rfl, nofun⟩

theorem Holds.push (h : Holds q l) (hnull : entry ≠ NULL) (hhead : entry ≠ head)
    (hfresh : q.allocated entry = false) : Holds (myqueuePush q value entry) (l ++ [entry]) ∧
      (l ++ [entry]).map (myqueuePush q value entry).value = l.map q.value ++ [value] := by
  have hentry : entry ∉ l := fun hmem => by
    rw [h.allocated entry hmem] at hfresh
    cases hfresh
  have hready : Linked ((q.allocate entry value).terminate entry) l :=
    h.toLinked.allocate.terminate hhead hentry
  have hlinked := hready.link h.tail hnull hhead hentry (Function.update_self ..) (Function.update_self ..)
  refine ⟨⟨hlinked.extend, ?_, fun a ha => ?_⟩, ?_⟩
  · show entry = (l ++ [entry]).getLastD head
    simp
  · by_cases hae : a = entry
    · simp [hae]
    · have hused : Function.update q.allocated entry true a = true := ha
      rw [Function.update_of_ne hae] at hused
      exact List.mem_append_left _ (h.used a hused)
  · have hvalue : (myqueuePush q value entry).value entry = value := Function.update_self ..
    have hold : l.map (myqueuePush q value entry).value = l.map q.value := Linked.map_allocate hentry
    rw [List.map_append, List.map_singleton, hvalue, hold]

theorem Holds.pop (h : Holds q (entry :: l)) :
    ∃ q', myqueuePop q = some (q.value entry, q') ∧ Holds q' l ∧ l.map q'.value = l.map q.value := by
  have hempty : myqueueIsEmpty q = false := by
    rw [← Bool.not_eq_true, h.isEmpty_iff]
    exact List.cons_ne_nil entry l
  have hfirst : q.next head = entry := h.next_head
  have hentry : entry ∉ l := fun hmem =>
    (List.nodup_cons.mp (List.nodup_cons.mp h.nodup).2).1 hmem
  have hunlinked := h.toLinked.unlink
  have hused : ∀ (p : MyQueue) a, p.allocated = q.allocated → (p.free entry).allocated a = true →
      a ∈ l := by
    intro p a hp ha
    have ha : Function.update p.allocated entry false a = true := ha
    by_cases hae : a = entry
    · rw [hae, Function.update_self] at ha
      cases ha
    · rw [Function.update_of_ne hae, hp] at ha
      exact (List.mem_cons.mp (h.used a ha)).resolve_left hae
  by_cases hlast : q.unlink.next head = NULL
  · have hl : l = [] := hunlinked.isEmpty_iff.mp (decide_eq_true hlast)
    refine ⟨q.unlink.relink.free entry, ?_, ⟨hunlinked.relink.free hentry, ?_, ?_⟩, rfl⟩
    · simp only [myqueuePop, hempty, Bool.false_eq_true, if_false, hlast, if_true, hfirst]
    · rw [hl]
      rfl
    · exact fun a ha => hused _ a rfl ha
  · have hne : l ≠ [] := fun hl => hlast (of_decide_eq_true (hunlinked.isEmpty_iff.mpr hl))
    refine ⟨q.unlink.free entry, ?_, ⟨hunlinked.free hentry, h.tail.unlink hne, ?_⟩, rfl⟩
    · simp only [myqueuePop, hempty, Bool.false_eq_true, if_false, hlast, hfirst]
    · exact fun a ha => hused _ a rfl ha

/-! ### Sequences of calls -/

/-- The channel holds the values of the entries in the queue. -/
def Represents (q : MyQueue) (ch : Channel T Int) : Prop :=
  ∃ l, Holds q l ∧ ch.queue = l.map q.value

theorem Represents.call {ch : Channel T Int} {call : Call T} (h : Represents q ch)
    (hcall : call.Allocates q) : Option.Rel Represents (call.inMemory q) (call.inChannel ch) := by
  obtain ⟨l, hholds, hqueue⟩ := h
  cases call with
  | push value entry =>
    obtain ⟨hnull, hhead, hfresh⟩ := hcall
    obtain ⟨hpushed, hvalues⟩ : Holds (myqueuePush q value entry) (l ++ [entry]) ∧ _ :=
      hholds.push hnull hhead hfresh
    refine .some ⟨l ++ [entry], hpushed, ?_⟩
    rw [hvalues, ← hqueue]
    rfl
  | isEmpty answer =>
    have hanswer : myqueueIsEmpty q = ch.queue.isEmpty := by
      rw [Bool.eq_iff_iff, hholds.isEmpty_iff, List.isEmpty_iff, hqueue, List.map_eq_nil_iff]
    rw [Call.inMemory, Call.inChannel, hanswer]
    split
    · exact .some ⟨l, hholds, hqueue⟩
    · exact .none
  | pop t value =>
    rw [Call.inMemory, Call.inChannel]
    cases l with
    | nil =>
      have hempty : myqueuePop q = none := if_pos (hholds.isEmpty_iff.mpr rfl)
      have hnone : ch.receive t = none := by
        rw [Option.eq_none_iff_forall_ne_some]
        rintro ⟨a, ch'⟩ hrec
        rw [(Channel.receive_cases hrec).1] at hqueue
        cases hqueue
      rw [hempty, hnone]
      exact .none
    | cons entry l =>
      obtain ⟨q', hpop, hpopped, hvalues⟩ := hholds.pop
      rw [List.map_cons] at hqueue
      obtain ⟨a, ch', hrec⟩ := ch.receive_isSome (t := t) (by rw [hqueue]; exact List.cons_ne_nil _ _)
      obtain ⟨ha, hrest⟩ := List.cons_eq_cons.mp ((Channel.receive_cases hrec).1.symm.trans hqueue)
      rw [hpop, hrec, Option.bind_some, Option.bind_some, ha]
      dsimp only
      split
      · exact .some ⟨l, hpopped, hrest.trans hvalues.symm⟩
      · exact .none

theorem refinesChannel (next : Nat → Nat) (value : Nat → Int) (calls : List (Call T))
    (hcalls : Meets Call.inMemory Call.Allocates (myqueueInit next value) calls) :
    Option.Rel Represents (run Call.inMemory (myqueueInit next value) calls)
      (run Call.inChannel Channel.empty calls) :=
  run_rel_of_meets (fun _ _ _ => Represents.call) ⟨[], Holds.init next value, rfl⟩ hcalls

/-- The entry of the popped 3 is used again for the 5. -/
theorem refinesChannel_reuse :
    Option.Rel Represents (run Call.inMemory (myqueueInit (fun _ => 7) fun _ => 9)
      [.push 3 8, .push 4 16, .pop () 3, .push 5 8, .pop () 4, .isEmpty false])
      (run Call.inChannel Channel.empty
        [.push 3 8, .push 4 16, .pop () 3, .push 5 8, .pop () 4, .isEmpty false]) :=
  refinesChannel _ _ _ (by decide)

end OsExercises.SpinMutex
