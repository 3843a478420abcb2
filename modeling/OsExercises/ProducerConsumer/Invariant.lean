import OsExercises.Lib.Mutex
import OsExercises.ProducerConsumer.Model

/-!
# The invariant of the producer and its consumers

`Inv n σ`: the place of `main` says what was pushed so far (`MainPc.produced`), a consumer has added
all it popped except the value it still holds (`Consumer.Ok`), a consumer that is about to pop finds
the queue not empty, and the partial sum of the joining loop is the sum over consumers that have
finished. Every step of either variant keeps it (`Inv.step`).
-/

namespace OsExercises.ProducerConsumer

variable {c : Nat}

/-- The values that the first loop pushes, up to the number `k`. -/
def numbers (k : Nat) : List Int := (List.range k).map fun j => Task.value (.number (j + 1 : Nat))

/-- What was pushed before the iteration `task`. -/
def Task.before (n : Int) : Task → List Int
  | .number i => numbers (i - 1).toNat
  | .sentinel i => numbers n.toNat ++ List.replicate i INT_MAX

def Task.Ok (c : Nat) (n : Int) : Task → Prop
  | .number i => 1 ≤ i ∧ i ≤ n
  | .sentinel i => i < c

namespace MainPc

/-- `main` has `queue_mutex`. -/
def holds : MainPc → Bool
  | .pushing _ | .signalling _ | .unlocking _ => true
  | _ => false

/-- What was pushed so far. -/
def produced (c : Nat) (n : Int) : MainPc → List Int
  | .creating _ | .initializing => []
  | .locking task | .pushing task => task.before n
  | .signalling task | .unlocking task | .advancing task => task.before n ++ [task.value]
  | .joining _ _ | .finished _ => numbers n.toNat ++ List.replicate c INT_MAX

def Ok (c : Nat) (n : Int) : MainPc → Prop
  | .locking task | .pushing task | .signalling task | .unlocking task | .advancing task => task.Ok c n
  | _ => True

/-- The joined consumers have finished, and their sums were added. -/
def Joined (consumers : Fin c → Consumer) : MainPc → Prop
  | .joining i finalSum => finalSum = (∑ t : Fin c, if t.1 < i then (consumers t).sum else 0) ∧
    ∀ t : Fin c, t.1 < i → (consumers t).pc = .finished
  | .finished finalSum => finalSum = (∑ t, (consumers t).sum) ∧ ∀ t, (consumers t).pc = .finished
  | _ => True

end MainPc

namespace ConsumerPc

/-- The consumer has `queue_mutex`. -/
def holds : ConsumerPc → Bool
  | .testing | .popping | .unlocking _ => true
  | _ => false

/-- The popped value that was not added. -/
def held : ConsumerPc → List Int
  | .unlocking value | .deciding value => [value]
  | .finished => [INT_MAX]
  | _ => []

def started : ConsumerPc → Bool
  | .unborn | .starting => false
  | _ => true

end ConsumerPc

/-- What a consumer that `received` these values has done with them. -/
structure Consumer.Ok (received : List Int) (k : Consumer) : Prop where
  received : received = k.added ++ k.pc.held
  added : INT_MAX ∉ k.added
  sum : k.pc.started = true → k.sum = k.added.sum
  fresh : k.pc.started = false → k.added = []

def System.holding (σ : System c) : Thread c → Bool
  | .main => σ.main.holds
  | .consumer t => (σ.pc t).holds

structure Inv (n : Int) (σ : System c) : Prop where
  holder : Holder id σ.mutex σ.holding
  main : σ.main.Ok c n
  sent : σ.queue.sent = σ.main.produced c n
  unborn : ∀ t, σ.pc t = .unborn ↔ ∃ i, σ.main = .creating i ∧ i ≤ t
  joined : σ.main.Joined σ.consumers
  consumer : ∀ t, (σ.consumers t).Ok (σ.queue.receivedBy t)
  popping : ∀ t, σ.pc t = .popping → σ.queue.queue ≠ []

/-! ### The loops of `main` -/

theorem numbers_succ (k : Nat) : numbers (k + 1) = numbers k ++ [Task.value (.number (k + 1 : Nat))] := by
  simp [numbers, List.range_succ]

section Loops

variable {n i : Int} {k : Nat} {consumers : Fin c → Consumer}

theorem produced_sentinelLoop (h : k ≤ c) : (sentinelLoop c k).produced c n =
    numbers n.toNat ++ List.replicate k INT_MAX := by
  unfold sentinelLoop
  split
  · rfl
  · obtain rfl : k = c := by omega
    rfl

theorem ok_sentinelLoop : (sentinelLoop c k).Ok c n := by
  unfold sentinelLoop
  split
  · assumption
  · trivial

theorem joined_sentinelLoop : (sentinelLoop c k).Joined consumers := by
  unfold sentinelLoop
  split
  · trivial
  · simp [MainPc.Joined]

theorem holds_sentinelLoop : (sentinelLoop c k).holds = false := by
  unfold sentinelLoop
  split <;> rfl

theorem produced_numberLoop (h1 : 1 ≤ i) (hi : i ≤ n + 1) :
    (numberLoop c n i).produced c n = numbers (i - 1).toNat := by
  unfold numberLoop
  split
  · rfl
  · obtain rfl : i = n + 1 := by omega
    rw [produced_sentinelLoop (Nat.zero_le c), Int.add_sub_cancel, List.replicate_zero,
      List.append_nil]

theorem ok_numberLoop (h1 : 1 ≤ i) : (numberLoop c n i).Ok c n := by
  unfold numberLoop
  split
  · next hi => exact ⟨h1, hi⟩
  · exact ok_sentinelLoop

theorem joined_numberLoop : (numberLoop c n i).Joined consumers := by
  unfold numberLoop
  split
  · trivial
  · exact joined_sentinelLoop

theorem not_creating_sentinelLoop (j : Nat) : sentinelLoop c k ≠ .creating j := by
  unfold sentinelLoop
  split <;> exact nofun

theorem not_creating_numberLoop (j : Nat) : numberLoop c n i ≠ .creating j := by
  unfold numberLoop
  split
  · exact nofun
  · exact not_creating_sentinelLoop j

theorem holds_numberLoop : (numberLoop c n i).holds = false := by
  unfold numberLoop
  split
  · rfl
  · exact holds_sentinelLoop

end Loops

/-! ### Who has the mutex -/

section Holding

variable {σ σ' : System c} {t : Fin c} {k : Consumer}

theorem holding_congr (hmain : σ'.main.holds = σ.main.holds)
    (hpc : ∀ u, (σ'.pc u).holds = (σ.pc u).holds) (u : Thread c) :
    id (σ'.holding u) = id (σ.holding u) := by
  cases u with
  | main => exact hmain
  | consumer u => exact hpc u

theorem holder_main {mutex : Option (Thread c)}
    (h : Holder id mutex (Function.update σ.holding .main σ'.main.holds))
    (hpc : ∀ u, (σ'.pc u).holds = (σ.pc u).holds) : Holder id mutex σ'.holding := by
  refine h.congr ?_
  intro u
  cases u with
  | main => rfl
  | consumer u => exact hpc u

theorem holder_consumer {mutex : Option (Thread c)}
    (h : Holder id mutex (Function.update σ.holding (.consumer t) k.pc.holds))
    (hmain : σ'.main = σ.main) (hcons : σ'.consumers = Function.update σ.consumers t k) :
    Holder id mutex σ'.holding := by
  refine h.congr ?_
  intro u
  cases u with
  | main => exact congrArg MainPc.holds hmain
  | consumer u =>
    show (σ'.consumers u).pc.holds = _
    rw [hcons]
    by_cases hut : u = t
    · subst hut
      rw [Function.update_self, Function.update_self]
      rfl
    · rw [Function.update_of_ne hut, Function.update_of_ne (by simpa using hut)]
      rfl

end Holding

namespace System

variable {σ : System c} {t u : Fin c} {p : ConsumerPc}

theorem go_self : σ.go t p t = { σ.consumers t with pc := p } := Function.update_self ..

theorem go_of_ne (hut : u ≠ t) : σ.go t p u = σ.consumers u := Function.update_of_ne hut ..

end System

/-! ### The steps -/

theorem Consumer.Ok.go {received : List Int} {k : Consumer} {p : ConsumerPc} (h : k.Ok received)
    (hheld : p.held = k.pc.held) (hstarted : p.started = k.pc.started) :
    Consumer.Ok received { k with pc := p } :=
  ⟨hheld ▸ h.received, h.added, fun hp => h.sum (hstarted ▸ hp), fun hp => h.fresh (hstarted ▸ hp)⟩

theorem MainPc.Joined.congr {main : MainPc} {consumers consumers' : Fin c → Consumer}
    (h : main.Joined consumers)
    (hcons : ∀ t, (consumers t).pc = .finished → consumers' t = consumers t) :
    main.Joined consumers' := by
  cases main with
  | joining i finalSum =>
    obtain ⟨hsum, hfin⟩ := h
    refine ⟨?_, ?_⟩
    · rw [hsum]
      refine Finset.sum_congr rfl ?_
      intro t _
      split
      · next hi => rw [hcons t (hfin t hi)]
      · rfl
    · intro t hi
      rw [hcons t (hfin t hi)]
      exact hfin t hi
  | finished finalSum =>
    obtain ⟨hsum, hfin⟩ := h
    have hcons' : consumers' = consumers := funext fun t => hcons t (hfin t)
    rw [hcons']
    exact ⟨hsum, hfin⟩
  | _ => trivial

namespace Inv

variable {v : Variant} {n : Int} {σ σ' : System c} {t : Fin c} {e : Event c}

theorem init (sums : Fin c → Int) : Inv n (System.init sums) := by
  refine ⟨?_, trivial, rfl, ?_, trivial, ?_, ?_⟩
  · intro u
    cases u <;> simp [System.init, System.holding, System.pc, MainPc.holds, ConsumerPc.holds]
  · intro t
    exact ⟨fun _ => ⟨0, rfl, Nat.zero_le _⟩, fun _ => rfl⟩
  · intro t
    exact ⟨rfl, List.not_mem_nil, nofun, fun _ => rfl⟩
  · intro t ht
    cases ht

theorem born {main : MainPc} (h : Inv n σ) (hmain : σ.main = main) (hnot : ∀ i, main ≠ .creating i)
    (t : Fin c) : σ.pc t ≠ .unborn := by
  intro ht
  obtain ⟨i, hi, -⟩ := (h.unborn t).mp ht
  exact hnot i (hmain.symm.trans hi)

/-- A step of `main`, which creates no more consumers, that leaves them and the queue alone. -/
theorem mainMoved {main : MainPc} {mutex : Option (Thread c)} (h : Inv n σ)
    (hholder : Holder id mutex (Function.update σ.holding .main main.holds)) (hok : main.Ok c n)
    (hsent : main.produced c n = σ.main.produced c n) (hborn : ∀ t, σ.pc t ≠ .unborn)
    (hmain : ∀ i, main ≠ .creating i) (hjoined : main.Joined σ.consumers) :
    Inv n { σ with main := main, mutex := mutex } := by
  refine ⟨holder_main hholder (fun _ => rfl), hok, h.sent.trans hsent.symm, ?_, hjoined, h.consumer,
    h.popping⟩
  intro t
  refine ⟨fun ht => absurd ht (hborn t), ?_⟩
  rintro ⟨i, hi, -⟩
  exact absurd hi (hmain i)

/-- A step of a consumer; `queue` is the queue after it. -/
theorem consumerMoved {k : Consumer} {mutex : Option (Thread c)} {queue : MyQueue c} (h : Inv n σ)
    (hholder : Holder id mutex (Function.update σ.holding (.consumer t) k.pc.holds))
    (hunborn : k.pc = .unborn ↔ σ.pc t = .unborn) (hfin : σ.pc t ≠ .finished)
    (hok : k.Ok (queue.receivedBy t))
    (hsent : queue.sent = σ.queue.sent)
    (hreceived : ∀ u, u ≠ t → queue.receivedBy u = σ.queue.receivedBy u)
    (hpopping : k.pc = .popping → queue.queue ≠ [])
    (hpoppings : ∀ u, u ≠ t → σ.pc u = .popping → queue.queue ≠ []) :
    Inv n { σ with consumers := Function.update σ.consumers t k, mutex := mutex, queue := queue } := by
  refine ⟨holder_consumer hholder rfl rfl, h.main, hsent.trans h.sent, ?_, ?_, ?_, ?_⟩
  · intro u
    rw [← h.unborn u]
    by_cases hut : u = t
    · subst hut
      simpa [System.pc] using hunborn
    · simp [System.pc, hut]
  · refine h.joined.congr ?_
    intro u hu
    have hut : u ≠ t := fun heq => hfin (heq ▸ hu)
    exact Function.update_of_ne hut ..
  · intro u
    by_cases hut : u = t
    · subst hut
      simpa using hok
    · simpa [hut, hreceived u hut] using h.consumer u
  · intro u hu
    by_cases hut : u = t
    · subst hut
      exact hpopping (by simpa [System.pc] using hu)
    · exact hpoppings u hut (by simpa [System.pc, hut] using hu)

/-- A step of a consumer that leaves the queue and what it popped alone. -/
theorem go {p p' : ConsumerPc} {mutex : Option (Thread c)} (h : Inv n σ) (hpc : σ.pc t = p)
    (hholder : Holder id mutex (Function.update σ.holding (.consumer t) p'.holds))
    (hunborn : p' = .unborn ↔ p = .unborn) (hfin : p ≠ .finished) (hheld : p'.held = p.held)
    (hstarted : p'.started = p.started) (hpopping : p' = .popping → σ.queue.queue ≠ []) :
    Inv n { σ with consumers := σ.go t p', mutex := mutex } := by
  subst hpc
  exact h.consumerMoved hholder hunborn hfin ((h.consumer t).go hheld hstarted) rfl (fun _ _ => rfl)
    hpopping (fun u _ => h.popping u)

theorem holds_consumer (h : Inv n σ) (ht : (σ.pc t).holds = true) : σ.mutex = some (.consumer t) :=
  (h.holder (.consumer t)).mpr ht

theorem acquired {u : Thread c} (h : Inv n σ) (hmutex : σ.mutex = none) :
    Holder id (some u) (Function.update σ.holding u true) := by
  have hholder := h.holder
  rw [hmutex] at hholder
  exact hholder.acquire rfl

theorem released {u : Thread c} (h : Inv n σ) (hu : σ.holding u = true) :
    Holder id none (Function.update σ.holding u false) :=
  h.holder.release hu rfl

theorem main_unmoved {main main' : MainPc} (h : Inv n σ) (hmain : σ.main = main)
    (hholds : main'.holds = main.holds) :
    Holder id σ.mutex (Function.update σ.holding .main main'.holds) :=
  h.holder.move (hholds.trans (congrArg MainPc.holds hmain.symm))

theorem consumer_unmoved {p p' : ConsumerPc} (h : Inv n σ) (hpc : σ.pc t = p)
    (hholds : p'.holds = p.holds) :
    Holder id σ.mutex (Function.update σ.holding (.consumer t) p'.holds) :=
  h.holder.move (hholds.trans (congrArg ConsumerPc.holds hpc.symm))

/-- The thread that has the mutex is the only one that can be about to pop. -/
theorem not_popping (h : Inv n σ) (hmutex : σ.mutex ≠ some (.consumer t)) : σ.pc t ≠ .popping := by
  intro ht
  exact hmutex ((h.holder (.consumer t)).mpr (congrArg ConsumerPc.holds ht))

theorem createNext {i : Nat} (h : Inv n σ) (hmain : σ.main = .creating i) (hi : i < c) :
    Inv n { σ with main := .creating (i + 1), consumers := σ.go ⟨i, hi⟩ .starting } := by
  have hpc : (σ.consumers ⟨i, hi⟩).pc = .unborn := (h.unborn ⟨i, hi⟩).mpr ⟨i, hmain, Nat.le_refl i⟩
  have hpcs : ∀ u, u ≠ ⟨i, hi⟩ → (σ.go ⟨i, hi⟩ .starting u).pc = σ.pc u :=
    fun u hu => congrArg Consumer.pc (System.go_of_ne hu)
  refine ⟨h.holder.congr (holding_congr (by rw [hmain]; rfl) ?_), trivial, ?_, ?_, trivial, ?_, ?_⟩
  · intro u
    by_cases hu : u = ⟨i, hi⟩
    · subst hu
      simp [System.pc, System.go_self, hpc, ConsumerPc.holds]
    · exact congrArg ConsumerPc.holds (hpcs u hu)
  · rw [h.sent, hmain]
    rfl
  · intro u
    show (σ.go ⟨i, hi⟩ .starting u).pc = .unborn ↔ _
    by_cases hu : u = ⟨i, hi⟩
    · subst hu
      simp [System.go_self]
    · have hne : (u : Nat) ≠ i := fun heq => hu (Fin.ext heq)
      rw [hpcs u hu, h.unborn u, hmain]
      simp only [MainPc.creating.injEq, exists_eq_left']
      omega
  · intro u
    by_cases hu : u = ⟨i, hi⟩
    · subst hu
      show Consumer.Ok _ (σ.go ⟨i, hi⟩ .starting ⟨i, hi⟩)
      rw [System.go_self]
      exact (h.consumer _).go (by rw [hpc]; rfl) (by rw [hpc]; rfl)
    · show Consumer.Ok _ (σ.go ⟨i, hi⟩ .starting u)
      rw [System.go_of_ne hu]
      exact h.consumer u
  · intro u hu
    have hne : u ≠ ⟨i, hi⟩ := by
      rintro rfl
      simp [System.pc, System.go_self] at hu
    exact h.popping u ((hpcs u hne).symm.trans hu)

theorem initQueue (h : Inv n σ) (h1 : 1 ≤ n) (hmain : σ.main = .initializing) :
    Inv n { σ with main := numberLoop c n 1, queue := myqueueInit c } := by
  have hqueue : σ.queue = Channel.empty := by
    refine Channel.eq_empty ?_
    rw [h.sent, hmain]
    rfl
  have hmoved : Inv n { σ with main := numberLoop c n 1 } := by
    refine h.mainMoved (h.main_unmoved hmain holds_numberLoop) (ok_numberLoop (by omega)) ?_
      (h.born hmain nofun) not_creating_numberLoop joined_numberLoop
    rw [produced_numberLoop (by omega) (by omega), hmain]
    rfl
  show Inv n { σ with main := numberLoop c n 1, queue := Channel.empty }
  rw [← hqueue]
  exact hmoved

theorem push {main : MainPc} {task : Task} (h : Inv n σ) (hmain : σ.main = .pushing task)
    (hnext : main = .unlocking task ∨ main = .signalling task) :
    Inv n { σ with main := main, queue := myqueuePush σ.queue task.value } := by
  have hsent := h.sent
  have hok := h.main
  rw [hmain] at hsent hok
  have hborn := h.born hmain nofun
  have hholder : Holder id σ.mutex (Function.update σ.holding .main main.holds) := by
    refine h.main_unmoved hmain ?_
    rcases hnext with rfl | rfl <;> rfl
  refine ⟨holder_main hholder fun _ => rfl, ?_, ?_, ?_, ?_, h.consumer, ?_⟩
  · rcases hnext with rfl | rfl <;> exact hok
  · have hproduced : main.produced c n = task.before n ++ [task.value] := by
      rcases hnext with rfl | rfl <;> rfl
    rw [hproduced]
    exact congrArg (· ++ [task.value]) hsent
  · intro t
    refine ⟨fun ht => absurd ht (hborn t), ?_⟩
    rintro ⟨i, rfl, -⟩
    rcases hnext with hnext | hnext <;> cases hnext
  · rcases hnext with rfl | rfl <;> trivial
  · intro t _
    simp [myqueuePush, Channel.send]

theorem pop {value : Int} {q : MyQueue c} (h : Inv n σ) (hpc : σ.pc t = .popping)
    (hpop : myqueuePop σ.queue t = some (value, q)) :
    Inv n { σ with consumers := σ.go t (.unlocking value), queue := q } := by
  obtain ⟨hqueue, hsent, -⟩ := Channel.receive_cases hpop
  have hmutex := h.holds_consumer (t := t) (by rw [hpc]; rfl)
  obtain ⟨hreceived, hadded, hsum, hfresh⟩ := h.consumer t
  refine h.consumerMoved (h.consumer_unmoved hpc rfl) ?_ ?_ ⟨?_, hadded, ?_, ?_⟩ hsent ?_ ?_ ?_
  · rw [hpc]
    exact ⟨nofun, nofun⟩
  · rw [hpc]
    exact nofun
  · have hheld : (σ.consumers t).pc.held = [] := congrArg ConsumerPc.held hpc
    rw [Channel.receivedBy_receive hpop, hreceived, hheld, List.append_nil]
    rfl
  · intro _
    exact hsum (congrArg ConsumerPc.started hpc)
  · exact nofun
  · intro u hut
    exact Channel.receivedBy_receive_of_ne hpop hut
  · exact nofun
  · intro u hut hu
    refine absurd hu (h.not_popping ?_)
    rw [hmutex]
    simpa using Ne.symm hut

theorem advanceNumber {i j : Int} (h : Inv n σ) (hmain : σ.main = .advancing (.number i))
    (hj : intAdd? i 1 = some j) : Inv n { σ with main := numberLoop c n j } := by
  obtain ⟨rfl, -⟩ := intAdd?_cases hj
  have hok := h.main
  rw [hmain] at hok
  obtain ⟨h1, hn⟩ : 1 ≤ i ∧ i ≤ n := hok
  refine h.mainMoved (h.main_unmoved hmain holds_numberLoop) (ok_numberLoop (by omega)) ?_
    (h.born hmain nofun) not_creating_numberLoop joined_numberLoop
  have hi : (i + 1 - 1).toNat = (i - 1).toNat + 1 := by omega
  have hcast : (((i - 1).toNat + 1 : Nat) : Int) = i := by omega
  rw [produced_numberLoop (by omega) (by omega), hmain, hi, numbers_succ, hcast]
  rfl

theorem advanceSentinel {i : Nat} (h : Inv n σ) (hmain : σ.main = .advancing (.sentinel i)) :
    Inv n { σ with main := sentinelLoop c (i + 1) } := by
  have hok := h.main
  rw [hmain] at hok
  have hi : i < c := hok
  refine h.mainMoved (h.main_unmoved hmain holds_sentinelLoop) ok_sentinelLoop ?_ (h.born hmain nofun)
    not_creating_sentinelLoop joined_sentinelLoop
  rw [produced_sentinelLoop (by omega), hmain, List.replicate_succ', ← List.append_assoc]
  rfl

theorem joinNext {i : Nat} {finalSum : Int} (h : Inv n σ) (hmain : σ.main = .joining i finalSum)
    (hi : i < c) (hpc : σ.pc ⟨i, hi⟩ = .finished) :
    Inv n { σ with main := .joining (i + 1) (finalSum + (σ.consumers ⟨i, hi⟩).sum) } := by
  have hjoined := h.joined
  rw [hmain] at hjoined
  obtain ⟨hsum, hfin⟩ := hjoined
  refine h.mainMoved (h.main_unmoved hmain rfl) trivial (by rw [hmain]; rfl)
    (h.born hmain nofun) nofun ⟨?_, ?_⟩
  · have hsplit : ∀ t : Fin c, (if t.1 < i + 1 then (σ.consumers t).sum else 0) =
        (if t.1 < i then (σ.consumers t).sum else 0) +
          if ⟨i, hi⟩ = t then (σ.consumers t).sum else 0 := by
      intro t
      by_cases ht : (⟨i, hi⟩ : Fin c) = t
      · subst ht
        simp
      · have hne : (t : Nat) ≠ i := fun heq => ht (Fin.ext heq.symm)
        have hiff : (t : Nat) < i + 1 ↔ (t : Nat) < i := by omega
        simp only [hiff, ht, if_false, Int.add_zero]
    simp only [hsplit, Finset.sum_add_distrib, Finset.sum_ite_eq, Finset.mem_univ, if_true, hsum]
  · intro t ht
    by_cases hti : (t : Nat) = i
    · subst hti
      exact hpc
    · exact hfin t (by omega)

theorem joined_all {i : Nat} {finalSum : Int} (h : Inv n σ) (hmain : σ.main = .joining i finalSum)
    (hi : ¬ i < c) : Inv n { σ with main := .finished finalSum } := by
  have hjoined := h.joined
  rw [hmain] at hjoined
  obtain ⟨hsum, hfin⟩ := hjoined
  have hlt : ∀ t : Fin c, (t : Nat) < i := fun t => by omega
  refine h.mainMoved (h.main_unmoved hmain rfl) trivial (by rw [hmain]; rfl)
    (h.born hmain nofun) nofun ⟨?_, fun t => hfin t (hlt t)⟩
  simpa only [hlt, if_true] using hsum

theorem signal {task : Task} (h : Inv n σ) (hmain : σ.main = .signalling task)
    (hpc : σ.pc t = .sleeping) :
    Inv n { σ with main := .unlocking task, consumers := σ.go t .woken } := by
  have hwoken : Inv n { σ with consumers := σ.go t .woken } :=
    h.go hpc (h.consumer_unmoved hpc rfl) ⟨nofun, nofun⟩ nofun rfl rfl nofun
  have hok := h.main
  rw [hmain] at hok
  exact hwoken.mainMoved (hwoken.main_unmoved hmain rfl) hok (by rw [hmain]; rfl)
    (hwoken.born hmain nofun) nofun trivial

theorem start_sum (h : Inv n σ) (hpc : σ.pc t = .starting) : Inv n { σ with
    consumers := Function.update σ.consumers t { σ.consumers t with pc := .locking, sum := 0 } } := by
  obtain ⟨hreceived, hadded, hsum, hfresh⟩ := h.consumer t
  have hnil : (σ.consumers t).added = [] := hfresh (congrArg ConsumerPc.started hpc)
  have hheld : (σ.consumers t).pc.held = [] := congrArg ConsumerPc.held hpc
  refine h.consumerMoved (h.consumer_unmoved hpc rfl) (by rw [hpc]; exact ⟨nofun, nofun⟩)
    (by rw [hpc]; exact nofun) ⟨?_, hadded, ?_, nofun⟩ rfl (fun _ _ => rfl) nofun
    (fun u _ => h.popping u)
  · rw [hreceived, hheld]
    rfl
  · intro _
    rw [hnil]
    rfl

theorem stop (h : Inv n σ) (hpc : σ.pc t = .deciding INT_MAX) :
    Inv n { σ with consumers := σ.go t .finished } :=
  h.go hpc (h.consumer_unmoved hpc rfl) ⟨nofun, nofun⟩ nofun rfl rfl nofun

theorem add {value : Int} (h : Inv n σ) (hpc : σ.pc t = .deciding value) (hvalue : value ≠ INT_MAX) :
    Inv n { σ with
      consumers := Function.update σ.consumers t
        ⟨.locking, (σ.consumers t).sum + value, (σ.consumers t).added ++ [value]⟩ } := by
  obtain ⟨hreceived, hadded, hsum, hfresh⟩ := h.consumer t
  have hheld : (σ.consumers t).pc.held = [value] := congrArg ConsumerPc.held hpc
  refine h.consumerMoved (h.consumer_unmoved hpc rfl) (by rw [hpc]; exact ⟨nofun, nofun⟩)
    (by rw [hpc]; exact nofun) ⟨?_, ?_, ?_, nofun⟩ rfl (fun _ _ => rfl) nofun
    (fun u _ => h.popping u)
  · rw [hreceived, hheld]
    exact (List.append_nil _).symm
  · intro hmem
    rcases List.mem_append.mp hmem with hmem | hmem
    · exact hadded hmem
    · exact hvalue (List.mem_singleton.mp hmem).symm
  · intro _
    rw [List.sum_append, List.sum_singleton, ← hsum (congrArg ConsumerPc.started hpc)]

theorem step (h : Inv n σ) (h1 : 1 ≤ n) (hs : σ.step v n e = some σ') : Inv n σ' := by
  have hok := h.main
  cases System.step_cases hs with
  | createNext hmain hi => exact h.createNext hmain hi
  | @created i hmain hi =>
    refine h.mainMoved (h.main_unmoved hmain rfl) trivial (by rw [hmain]; rfl) ?_ nofun trivial
    intro t ht
    obtain ⟨j, hj, hjt⟩ := (h.unborn t).mp ht
    cases hmain.symm.trans hj
    omega
  | init hmain => exact h.initQueue h1 hmain
  | mainLock hmain hmutex =>
    rw [hmain] at hok
    exact h.mainMoved (h.acquired hmutex) hok (by rw [hmain]; rfl)
      (h.born hmain nofun) nofun trivial
  | pushBusyWaiting _ hmain => exact h.push hmain (.inl rfl)
  | pushCondition _ hmain => exact h.push hmain (.inr rfl)
  | signal hmain hpc => exact h.signal hmain hpc
  | signalNobody hmain _ =>
    rw [hmain] at hok
    exact h.mainMoved (h.main_unmoved hmain rfl) hok (by rw [hmain]; rfl)
      (h.born hmain nofun) nofun trivial
  | mainUnlock hmain =>
    rw [hmain] at hok
    exact h.mainMoved (h.released (congrArg MainPc.holds hmain)) hok (by rw [hmain]; rfl)
      (h.born hmain nofun) nofun trivial
  | advanceNumber hmain hj => exact h.advanceNumber hmain hj
  | advanceSentinel hmain => exact h.advanceSentinel hmain
  | joinNext hmain hi hpc => exact h.joinNext hmain hi hpc
  | joined hmain hi => exact h.joined_all hmain hi
  | start hpc => exact h.start_sum hpc
  | lock hpc hmutex => exact h.go hpc (h.acquired hmutex) ⟨nofun, nofun⟩ nofun rfl rfl nofun
  | tryAgain _ hpc _ =>
    exact h.go hpc (h.released (congrArg ConsumerPc.holds hpc)) ⟨nofun, nofun⟩ nofun rfl rfl nofun
  | sleep _ hpc _ =>
    exact h.go hpc (h.released (congrArg ConsumerPc.holds hpc)) ⟨nofun, nofun⟩ nofun rfl rfl nofun
  | found hpc hne =>
    exact h.go hpc (h.consumer_unmoved hpc rfl) ⟨nofun, nofun⟩ nofun rfl rfl (fun _ => hne)
  | wake hpc =>
    exact h.go hpc (h.consumer_unmoved hpc rfl) ⟨nofun, nofun⟩ nofun rfl rfl nofun
  | relock hpc hmutex => exact h.go hpc (h.acquired hmutex) ⟨nofun, nofun⟩ nofun rfl rfl nofun
  | pop hpc hpop => exact h.pop hpc hpop
  | unlock hpc =>
    exact h.go hpc (h.released (congrArg ConsumerPc.holds hpc)) ⟨nofun, nofun⟩ nofun rfl rfl nofun
  | stop hpc => exact h.stop hpc
  | add hpc hvalue => exact h.add hpc hvalue

theorem of_run {sums : Fin c → Int} {events : List (Event c)} (h1 : 1 ≤ n)
    (hr : Transition.run (System.step v n) (System.init sums) events = some σ) : Inv n σ :=
  Transition.run_inv (fun _ _ _ h hs => h.step h1 hs) (init sums) hr

end Inv
end OsExercises.ProducerConsumer
