import OsExercises.Lib.Population

/-!
# A first-in first-out channel with its log

`Channel T α` holds the queue, everything ever sent, and everything ever received with its receiver.
That nothing is lost, duplicated or reordered is part of the type. What the receivers hold between
them is what was received (`sum_receivedBy`).
-/

namespace OsExercises

structure Channel (T α : Type*) where
  queue : List α
  /-- The first one first. -/
  sent : List α
  received : List (T × α)
  fifo : sent = received.map Prod.snd ++ queue

namespace Channel

variable {T α : Type*}

def empty : Channel T α := ⟨[], [], [], rfl⟩

def send (q : Channel T α) (a : α) : Channel T α :=
  ⟨q.queue ++ [a], q.sent ++ [a], q.received, by rw [q.fifo, List.append_assoc]⟩

/-- `none` if the queue is empty. -/
def receive (q : Channel T α) (t : T) : Option (α × Channel T α) :=
  match hq : q.queue with
  | [] => none
  | a :: rest => some (a, ⟨rest, q.sent, q.received ++ [(t, a)], by rw [q.fifo, hq]; simp⟩)

variable {q q' : Channel T α} {a : α} {t u : T}

theorem receive_cases (h : q.receive t = some (a, q')) : q.queue = a :: q'.queue ∧
    q'.sent = q.sent ∧ q'.received = q.received ++ [(t, a)] := by
  unfold receive at h
  split at h
  · cases h
  · next hq =>
    cases h
    exact ⟨hq, rfl, rfl⟩

theorem receive_isSome (h : q.queue ≠ []) : ∃ a q', q.receive t = some (a, q') := by
  unfold receive
  split
  · next hq => exact absurd hq h
  · exact ⟨_, _, rfl⟩

theorem eq_empty (h : q.sent = []) : q = empty := by
  have hfifo := q.fifo
  rw [h] at hfifo
  obtain ⟨hmap, hqueue⟩ := List.append_eq_nil_iff.mp hfifo.symm
  cases q
  subst h hqueue
  rw [List.map_eq_nil_iff] at hmap
  subst hmap
  rfl

variable [DecidableEq T]

/-- What `t` received, the first one first. -/
def receivedBy (q : Channel T α) (t : T) : List α := (q.received.filter (·.1 = t)).map Prod.snd

theorem receivedBy_receive (h : q.receive t = some (a, q')) :
    q'.receivedBy t = q.receivedBy t ++ [a] := by
  simp [receivedBy, (receive_cases h).2.2]

theorem receivedBy_receive_of_ne (h : q.receive t = some (a, q')) (hut : u ≠ t) :
    q'.receivedBy u = q.receivedBy u := by
  simp [receivedBy, (receive_cases h).2.2, Ne.symm hut]

theorem mem_sent_of_mem_receivedBy (h : a ∈ q.receivedBy t) : a ∈ q.sent := by
  obtain ⟨r, hr, rfl⟩ := List.mem_map.mp h
  rw [q.fifo]
  exact List.mem_append_left _ (List.mem_map.mpr ⟨r, (List.mem_filter.mp hr).1, rfl⟩)

variable [Fintype T]

theorem sum_receivedBy {M : Type*} [AddCommMonoid M] (q : Channel T α) (f : α → M) :
    ∑ t, ((q.receivedBy t).map f).sum = ((q.received.map Prod.snd).map f).sum := by
  unfold receivedBy
  induction q.received with
  | nil => simp
  | cons r rest ih =>
    have hcons : ∀ t, ((((r :: rest).filter (·.1 = t)).map Prod.snd).map f).sum =
        (if r.1 = t then f r.2 else 0) + (((rest.filter (·.1 = t)).map Prod.snd).map f).sum := by
      intro t
      by_cases ht : r.1 = t <;> simp [ht]
    simp only [hcons, Finset.sum_add_distrib, ih, Finset.sum_ite_eq, Finset.mem_univ, if_true,
      List.map_cons, List.sum_cons]

theorem sum_count_receivedBy [DecidableEq α] (q : Channel T α) (a : α) :
    ∑ t, (q.receivedBy t).count a = (q.received.map Prod.snd).count a := by
  have hcount : ∀ l : List α, l.count a = (l.map fun x => if x = a then 1 else 0).sum := by
    intro l
    induction l with
    | nil => rfl
    | cons x l ih =>
      rw [List.count_cons, ih, List.map_cons, List.sum_cons, Nat.add_comm]
      simp
  simp only [hcount]
  exact q.sum_receivedBy _

end Channel
end OsExercises
