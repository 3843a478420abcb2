import OsExercises.ProducerConsumer.Conservation
import Mathlib.Tactic.Ring

/-!
# The range of the partial sums

The numbers `1, -2, 3, ..` almost cancel out, but the scheduler decides which of them a consumer adds.
The extreme case is a consumer that pops all the odd numbers: their sum is `46341 ^ 2` for the first
46341 of them, more than `INT_MAX`. Up to `n = 92680` no partial sum leaves the range of `int`, and
neither does the sum of a single consumer; from `n = 92681` on two consumers can be scheduled so that
one does (`inRange_iff`).
-/

namespace OsExercises.ProducerConsumer
open Transition

variable {c : Nat}

/-- The sums of the consumers that have started, and the partial sums of `main`, are values of an
`int`. -/
structure InRange (σ : System c) : Prop where
  consumer : ∀ t, (σ.pc t).started = true →
    INT_MIN ≤ (σ.consumers t).sum ∧ (σ.consumers t).sum ≤ INT_MAX
  final : ∀ i s, σ.main = .joining i s ∨ σ.main = .finished s → INT_MIN ≤ s ∧ s ≤ INT_MAX

/-! ### What the consumers have added between them -/

theorem numbers_mono {j k : Nat} (h : j ≤ k) : numbers j <+: numbers k := by
  obtain ⟨d, rfl⟩ := Nat.exists_eq_add_of_le h
  induction d with
  | zero => exact List.prefix_rfl
  | succ d ih =>
    rw [← Nat.add_assoc, numbers_succ]
    exact (ih (Nat.le_add_right j d)).trans (List.prefix_append _ _)

theorem replicate_mono {j k : Nat} (h : j ≤ k) (a : Int) :
    List.replicate j a <+: List.replicate k a := by
  obtain ⟨d, rfl⟩ := Nat.exists_eq_add_of_le h
  rw [List.replicate_add]
  exact List.prefix_append _ _

variable {n : Int} {σ : System c} {t : Fin c}

theorem Task.before_initial {task : Task} (h : task.Ok c n) :
    task.before n ++ [task.value] <+: numbers n.toNat ++ List.replicate c INT_MAX := by
  cases task with
  | number i =>
    obtain ⟨h1, hi⟩ := h
    have hlast : ((i - 1).toNat + 1 : Nat) = i.toNat := by omega
    have hvalue : Task.value (.number i) = Task.value (.number (((i - 1).toNat + 1 : Nat) : Int)) := by
      congr 2
      omega
    rw [Task.before, hvalue, ← numbers_succ, hlast]
    exact (numbers_mono (by omega)).trans (List.prefix_append _ _)
  | sentinel i =>
    have hi : i < c := h
    show numbers n.toNat ++ List.replicate i INT_MAX ++ [INT_MAX] <+: _
    rw [List.append_assoc, ← List.replicate_succ']
    exact (List.prefix_append_right_inj _).mpr (replicate_mono hi INT_MAX)

theorem produced_initial {main : MainPc} (h : main.Ok c n) :
    main.produced c n <+: numbers n.toNat ++ List.replicate c INT_MAX := by
  cases main with
  | creating i => exact List.nil_prefix
  | initializing => exact List.nil_prefix
  | locking task => exact (List.prefix_append _ _).trans (Task.before_initial h)
  | pushing task => exact (List.prefix_append _ _).trans (Task.before_initial h)
  | signalling task => exact Task.before_initial h
  | unlocking task => exact Task.before_initial h
  | advancing task => exact Task.before_initial h
  | joining i s => exact List.prefix_rfl
  | finished s => exact List.prefix_rfl

namespace Inv

theorem received_initial (h : Inv n σ) :
    σ.queue.received.map Prod.snd <+: numbers n.toNat ++ List.replicate c INT_MAX := by
  refine List.IsPrefix.trans ?_ (produced_initial h.main)
  rw [← h.sent, σ.queue.fifo]
  exact List.prefix_append _ _

theorem added_initial (h : Inv n σ) (t : Fin c) : (σ.consumers t).added <+: σ.queue.receivedBy t := by
  rw [(h.consumer t).received]
  exact List.prefix_append _ _

end Inv

theorem sum_map_le_of_initial {l l' : List Int} {f : Int → Int} (h : l <+: l') (hf : ∀ a, 0 ≤ f a) :
    (l.map f).sum ≤ (l'.map f).sum := by
  obtain ⟨r, rfl⟩ := h
  have hr : 0 ≤ (r.map f).sum := List.sum_nonneg (by simpa using fun a _ => hf a)
  rw [List.map_append, List.sum_append]
  omega

/-- What any consumers have added between them is bounded by the numbers of one sign. -/
theorem Inv.sum_added_le {f : Int → Int} {s : Int} (h : Inv n σ) (hf : ∀ a, 0 ≤ f a)
    (hmax : f INT_MAX = 0) (hs : ∀ a, a ≠ INT_MAX → s * a ≤ f a) (T : Finset (Fin c)) :
    s * ∑ t ∈ T, (σ.consumers t).added.sum ≤ ((numbers n.toNat).map f).sum := by
  have hone : ∀ t, s * (σ.consumers t).added.sum ≤ ((σ.queue.receivedBy t).map f).sum := by
    intro t
    refine le_trans ?_ (sum_map_le_of_initial (h.added_initial t) hf)
    have hmul : s * (σ.consumers t).added.sum = ((σ.consumers t).added.map (s * ·)).sum := by
      rw [List.sum_map_mul_left, List.map_id']
    rw [hmul]
    refine List.sum_le_sum fun a ha => hs a ?_
    rintro rfl
    exact (h.consumer t).added ha
  calc s * ∑ t ∈ T, (σ.consumers t).added.sum
      = ∑ t ∈ T, s * (σ.consumers t).added.sum := Finset.mul_sum ..
    _ ≤ ∑ t ∈ T, ((σ.queue.receivedBy t).map f).sum := Finset.sum_le_sum fun t _ => hone t
    _ ≤ ∑ t, ((σ.queue.receivedBy t).map f).sum :=
        Finset.sum_le_univ_sum_of_nonneg fun t => List.sum_nonneg (by simpa using fun a _ => hf a)
    _ = ((σ.queue.received.map Prod.snd).map f).sum := σ.queue.sum_receivedBy f
    _ ≤ ((numbers n.toNat ++ List.replicate c INT_MAX).map f).sum :=
        sum_map_le_of_initial h.received_initial hf
    _ = ((numbers n.toNat).map f).sum := by simp [hmax]

/-! ### The numbers of one sign -/

theorem sum_positive (k : Nat) :
    ((numbers k).map fun a => Max.max a 0).sum = (((k + 1) / 2 : Nat) : Int) ^ 2 := by
  induction k with
  | zero => rfl
  | succ k ih =>
    rw [numbers_succ, List.map_append, List.sum_append, ih, List.map_singleton, List.sum_singleton,
      value_number]
    obtain ⟨j, rfl | rfl⟩ := Nat.even_or_odd' k
    · have h1 : (2 * j + 1) / 2 = j := by omega
      have h2 : (2 * j + 1 + 1) / 2 = j + 1 := by omega
      rw [if_pos (by omega), h1, h2, max_eq_left (by omega)]
      push_cast
      ring
    · have h1 : (2 * j + 1 + 1) / 2 = j + 1 := by omega
      have h2 : (2 * j + 1 + 1 + 1) / 2 = j + 1 := by omega
      rw [if_neg (by omega), h1, h2, max_eq_right (by omega), Int.add_zero]

theorem sum_negative (k : Nat) :
    ((numbers k).map fun a => Max.max (-a) 0).sum = ((k / 2 : Nat) : Int) * (k / 2 + 1 : Nat) := by
  induction k with
  | zero => rfl
  | succ k ih =>
    rw [numbers_succ, List.map_append, List.sum_append, ih, List.map_singleton, List.sum_singleton,
      value_number]
    obtain ⟨j, rfl | rfl⟩ := Nat.even_or_odd' k
    · have h1 : 2 * j / 2 = j := by omega
      have h2 : (2 * j + 1) / 2 = j := by omega
      rw [if_pos (by omega), h1, h2, max_eq_right (by omega), Int.add_zero]
    · have h1 : (2 * j + 1) / 2 = j := by omega
      have h2 : (2 * j + 1 + 1) / 2 = j + 1 := by omega
      rw [if_neg (by omega), h1, h2, max_eq_left (by omega)]
      push_cast
      ring

theorem Inv.sum_added_mem (h : Inv n σ) (hn : n ≤ 92680) (T : Finset (Fin c)) :
    INT_MIN ≤ ∑ t ∈ T, (σ.consumers t).added.sum ∧ ∑ t ∈ T, (σ.consumers t).added.sum ≤ INT_MAX := by
  have hmax : (0 : Int) ≤ INT_MAX := by decide
  constructor
  · have hle := h.sum_added_le (f := fun a => Max.max (-a) 0) (s := -1) (fun a => le_max_right _ _)
      (max_eq_right (by omega)) (fun a _ => by rw [Int.neg_one_mul]; exact le_max_left _ _) T
    have hk : n.toNat / 2 ≤ 46340 := by omega
    have hprod : n.toNat / 2 * (n.toNat / 2 + 1) ≤ 46340 * 46341 :=
      Nat.mul_le_mul hk (Nat.add_le_add_right hk 1)
    rw [sum_negative, ← Nat.cast_mul] at hle
    unfold INT_MIN
    omega
  · have hle := h.sum_added_le (f := fun a => if a = INT_MAX then 0 else Max.max a 0) (s := 1)
      (fun a => by split <;> omega) (if_pos rfl)
      (fun a ha => by rw [if_neg ha, Int.one_mul]; exact le_max_left _ _) T
    have hpositive : ((numbers n.toNat).map fun a => if a = INT_MAX then 0 else Max.max a 0).sum ≤
        ((numbers n.toNat).map fun a => Max.max a 0).sum := by
      refine List.sum_le_sum fun a _ => ?_
      split <;> omega
    have hk : (n.toNat + 1) / 2 ≤ 46340 := by omega
    have hprod := Nat.mul_le_mul hk hk
    rw [sum_positive, pow_two, ← Nat.cast_mul] at hpositive
    unfold INT_MAX at *
    omega

/-! ### A single consumer -/

theorem eq_numbers_of_initial {l : List Int} {k : Nat} (h : l <+: numbers k) : ∃ j, j ≤ k ∧ l = numbers j := by
  refine ⟨min l.length k, Nat.min_le_right _ _, ?_⟩
  rw [List.prefix_iff_eq_take.mp h, numbers, numbers, ← List.map_take, List.take_range, List.length_map,
    List.length_range]
  congr 2
  omega

/-- A single consumer adds the numbers in their order. -/
theorem Inv.added_single {σ : System 1} (h : Inv n σ) (h1 : 1 ≤ n) :
    ∃ j : Nat, (j : Int) ≤ n ∧ (σ.consumers 0).added = numbers j := by
  have hreceived : σ.queue.receivedBy 0 = σ.queue.received.map Prod.snd := by
    unfold Channel.receivedBy
    rw [List.filter_eq_self.mpr fun r _ => by simp [Subsingleton.elim r.1 0]]
  have hprefix := (h.added_initial 0).trans (hreceived ▸ h.received_initial)
  rcases List.prefix_or_prefix_of_prefix hprefix (List.prefix_append _ _) with hnumbers | hnumbers
  · obtain ⟨j, hj, heq⟩ := eq_numbers_of_initial hnumbers
    exact ⟨j, by omega, heq⟩
  · obtain ⟨r, hr⟩ := hnumbers
    rw [← hr, List.prefix_append_right_inj] at hprefix
    have hrnil : r = [] := by
      rcases r with _ | ⟨a, r⟩
      · rfl
      · have ha : a = INT_MAX := (List.cons_prefix_cons.mp hprefix).1
        refine absurd ?_ (h.consumer 0).added
        rw [← hr, ha]
        simp
    rw [hrnil, List.append_nil] at hr
    exact ⟨n.toNat, by omega, hr.symm⟩

theorem Inv.sum_added_mem_single {σ : System 1} (h : Inv n σ) (h1 : 1 ≤ n) (hn : n < INT_MAX)
    (T : Finset (Fin 1)) :
    INT_MIN ≤ ∑ t ∈ T, (σ.consumers t).added.sum ∧ ∑ t ∈ T, (σ.consumers t).added.sum ≤ INT_MAX := by
  obtain ⟨j, hj, hadded⟩ := h.added_single h1
  rcases T.eq_empty_or_nonempty with rfl | ⟨t, ht⟩
  · rw [Finset.sum_empty]
    exact ⟨by decide, by decide⟩
  · have hT : T = {0} := by
      refine Finset.eq_singleton_iff_unique_mem.mpr ⟨?_, fun u _ => Subsingleton.elim u 0⟩
      rwa [Subsingleton.elim t 0] at ht
    rw [hT, Finset.sum_singleton, hadded, sum_numbers]
    unfold INT_MIN INT_MAX at *
    split_ifs <;> omega

/-! ### The range -/

theorem Inv.inRange (h : Inv n σ) (hbound : ∀ T : Finset (Fin c),
    INT_MIN ≤ ∑ t ∈ T, (σ.consumers t).added.sum ∧ ∑ t ∈ T, (σ.consumers t).added.sum ≤ INT_MAX) :
    InRange σ := by
  have hsum : ∀ t, (σ.pc t).started = true → (σ.consumers t).sum = (σ.consumers t).added.sum :=
    fun t => (h.consumer t).sum
  refine ⟨fun t ht => ?_, fun i s hmain => ?_⟩
  · rw [hsum t ht, ← Finset.sum_singleton (fun t => (σ.consumers t).added.sum) t]
    exact hbound {t}
  · have hjoined := h.joined
    rcases hmain with hmain | hmain <;> rw [hmain] at hjoined <;> obtain ⟨rfl, hfin⟩ := hjoined
    · rw [← Finset.sum_filter, Finset.sum_congr rfl fun t ht =>
        hsum t (congrArg ConsumerPc.started (hfin t (Finset.mem_filter.mp ht).2))]
      exact hbound _
    · rw [Finset.sum_congr rfl fun t _ => hsum t (congrArg ConsumerPc.started (hfin t))]
      exact hbound _

/-! ### A schedule that gives one consumer all the odd numbers -/

section Schedule

variable {v : Variant} {task : Task} {a b : Fin c} {i s : Int}

theorem produce (hmain : σ.main = .locking task) (hmutex : σ.mutex = none)
    (hsleeping : ∀ t, σ.pc t ≠ .sleeping) : Reaches (System.step v n) σ
      { σ with main := .advancing task, mutex := none, queue := myqueuePush σ.queue task.value } := by
  have hlock : System.step v n σ .mainLock = some { σ with main := .pushing task, mutex := some .main } := by
    simp [System.step, System.mainLock, hmain, hmutex]
  refine .head hlock ?_
  cases v with
  | busyWaiting =>
    refine .head (a := .push) rfl ?_
    exact .head (a := .mainUnlock) rfl .refl
  | condition =>
    refine .head (a := .push) rfl ?_
    refine .head (a := .signal none) (if_pos hsleeping) ?_
    exact .head (a := .mainUnlock) rfl .refl

theorem consume {value : Int} (hpc : σ.pc t = .locking) (hmutex : σ.mutex = none)
    (hqueue : σ.queue.queue = [value]) (hvalue : value ≠ INT_MAX) :
    ∃ q : MyQueue c, q.queue = [] ∧ Reaches (System.step v n) σ { σ with
      consumers := Function.update σ.consumers t
        ⟨.locking, (σ.consumers t).sum + value, (σ.consumers t).added ++ [value]⟩
      mutex := none
      queue := q } := by
  obtain ⟨value', q, hpop⟩ := Channel.receive_isSome (t := t) (q := σ.queue) (by rw [hqueue]; nofun)
  have hfront := (Channel.receive_cases hpop).1
  rw [hqueue, List.cons.injEq] at hfront
  obtain ⟨rfl, hrest⟩ := hfront
  have hlock : System.step v n σ (.lock t) =
      some { σ with consumers := σ.go t .testing, mutex := some (.consumer t) } := by
    simp [System.step, System.lock, hpc, hmutex]
  have htest : System.step v n { σ with consumers := σ.go t .testing, mutex := some (.consumer t) }
      (.test t) = some { σ with consumers := σ.go t .popping, mutex := some (.consumer t) } := by
    simp [System.step, System.test, System.pc, System.go, myqueueIsEmpty, hqueue]
  have hpop' : System.step v n { σ with consumers := σ.go t .popping, mutex := some (.consumer t) }
      (.pop t) = some { σ with
        consumers := σ.go t (.unlocking value), mutex := some (.consumer t), queue := q } := by
    simp [System.step, System.pop, System.pc, System.go, myqueuePop, hpop]
  have hunlock : System.step v n { σ with
        consumers := σ.go t (.unlocking value), mutex := some (.consumer t), queue := q }
      (.unlock t) = some { σ with consumers := σ.go t (.deciding value), mutex := none, queue := q } := by
    simp [System.step, System.unlock, System.pc, System.go]
  have hdecide : System.step v n { σ with
        consumers := σ.go t (.deciding value), mutex := none, queue := q } (.decide t) = some { σ with
        consumers := Function.update σ.consumers t
          ⟨.locking, (σ.consumers t).sum + value, (σ.consumers t).added ++ [value]⟩
        mutex := none
        queue := q } := by
    simp [System.step, System.decide, System.pc, System.go, hvalue]
  exact ⟨q, hrest.symm, .head hlock (.head htest (.head hpop' (.head hunlock (.head hdecide .refl))))⟩

theorem value_ne_max (h1 : 1 ≤ i) (hi : i < INT_MAX) : Task.value (.number i) ≠ INT_MAX := by
  intro heq
  have habs := natAbs_value i
  rw [heq] at habs
  unfold INT_MAX at *
  omega

/-- `main` is about to push the number `i`, the queue is empty, and the consumers `a` and `b` are about
to take the mutex. -/
structure Feeding (a b : Fin c) (i s : Int) (σ : System c) : Prop where
  main : σ.main = .locking (.number i)
  mutex : σ.mutex = none
  queue : σ.queue.queue = []
  sleeping : ∀ t, σ.pc t ≠ .sleeping
  first : σ.pc a = .locking
  second : σ.pc b = .locking
  sum : (σ.consumers a).sum = s

/-- The number `i` is pushed and goes to the consumer `t`. -/
theorem Feeding.deliver (h : Feeding a b i s σ) (hpc : σ.pc t = .locking) (h1 : 1 ≤ i) (hi : i ≤ n)
    (hn : n < INT_MAX) : ∃ q : MyQueue c, q.queue = [] ∧ Reaches (System.step v n) σ
      { main := numberLoop c n (i + 1)
        consumers := Function.update σ.consumers t ⟨.locking,
          (σ.consumers t).sum + Task.value (.number i),
          (σ.consumers t).added ++ [Task.value (.number i)]⟩
        mutex := none
        queue := q } := by
  have hqueue : (myqueuePush σ.queue (Task.value (.number i))).queue = [Task.value (.number i)] := by
    show σ.queue.queue ++ _ = _
    rw [h.queue, List.nil_append]
  have hmin : INT_MIN ≤ i + 1 := by unfold INT_MIN; omega
  have hnext : intAdd? i 1 = some (i + 1) := intAdd?_eq_some rfl hmin (by omega)
  obtain ⟨q, hq, hconsume⟩ := consume (v := v) (n := n) (t := t) (σ := { σ with
    main := .advancing (.number i)
    mutex := none
    queue := myqueuePush σ.queue (Task.value (.number i)) }) hpc rfl hqueue (value_ne_max h1 (by omega))
  refine ⟨q, hq, (produce h.main h.mutex h.sleeping).trans (hconsume.trans (.head (a := .advance) ?_ .refl))⟩
  simp [System.step, System.advance, hnext]

/-- An odd number for `a` and the even one behind it for `b`. -/
theorem Feeding.pair (h : Feeding a b i s σ) (hab : a ≠ b) (hodd : i % 2 = 1) (h1 : 1 ≤ i)
    (hi : i + 2 ≤ n) (hn : n < INT_MAX) :
    ∃ σ', Reaches (System.step v n) σ σ' ∧ Feeding a b (i + 2) (s + i) σ' := by
  have hvalue : Task.value (.number i) = i := if_pos (by omega)
  obtain ⟨q, hq, hreach⟩ := h.deliver (v := v) h.first h1 (by omega) hn
  have hmain : numberLoop c n (i + 1) = .locking (.number (i + 1)) := if_pos (by omega)
  have hmiddle : Feeding a b (i + 1) (s + i) { σ with
      main := numberLoop c n (i + 1)
      consumers := Function.update σ.consumers a ⟨.locking, (σ.consumers a).sum + Task.value (.number i),
        (σ.consumers a).added ++ [Task.value (.number i)]⟩
      mutex := none
      queue := q } := by
    refine ⟨hmain, rfl, hq, fun u => ?_, ?_, ?_, ?_⟩
    · by_cases hu : u = a
      · simp [System.pc, hu]
      · simpa [System.pc, hu] using h.sleeping u
    · simp [System.pc]
    · simpa [System.pc, hab.symm] using h.second
    · simp [h.sum, hvalue]
  obtain ⟨q', hq', hreach'⟩ := hmiddle.deliver (v := v) hmiddle.second (by omega) (by omega) hn
  refine ⟨_, hreach.trans hreach', ?_⟩
  have hmain' : numberLoop c n (i + 1 + 1) = .locking (.number (i + 2)) := by
    rw [Int.add_assoc]
    exact if_pos hi
  refine ⟨hmain', rfl, hq', fun u => ?_, ?_, ?_, ?_⟩
  · by_cases hu : u = b
    · simp [System.pc, hu]
    · have hsleeping := hmiddle.sleeping u
      simpa [System.pc, hu] using hsleeping
  · simp [System.pc, hab]
  · simp [System.pc]
  · simp [hab, h.sum, hvalue]

theorem reaches_creating (sums : Fin c → Int) {k : Nat} (hk : k ≤ c) :
    Reaches (System.step v n) (System.init sums) { System.init sums with
      main := .creating k
      consumers := fun t => ⟨if t.1 < k then .starting else .unborn, sums t, []⟩ } := by
  induction k with
  | zero => exact .refl
  | succ k ih =>
    refine (ih (by omega)).trans (.head (a := .create) ?_ .refl)
    have hgo : System.go { System.init sums with
        main := .creating k
        consumers := fun t => ⟨if t.1 < k then .starting else .unborn, sums t, []⟩ } ⟨k, hk⟩ .starting =
        fun t => ⟨if t.1 < k + 1 then .starting else .unborn, sums t, []⟩ := by
      funext t
      by_cases ht : t = ⟨k, hk⟩
      · simp [System.go, ht]
      · have htk : t.1 ≠ k := fun h => ht (Fin.ext h)
        have hiff : t.1 < k ↔ t.1 < k + 1 := by omega
        simp [System.go, ht, hiff]
    simp only [System.step, System.create, dif_pos (show k < c from hk), hgo]

/-- All consumers are created, the queue is initialized, and `a` and `b` start before anything is
pushed. -/
theorem reaches_feeding (sums : Fin c → Int) (hab : a ≠ b) (h1 : 1 ≤ n) :
    ∃ σ, Reaches (System.step v n) (System.init sums) σ ∧ Feeding a b 1 0 σ := by
  have hmain : numberLoop c n 1 = .locking (.number 1) := if_pos h1
  have hcreated : System.step v n { System.init sums with
      main := .creating c
      consumers := fun t => ⟨if t.1 < c then .starting else .unborn, sums t, []⟩ } .create =
      some { System.init sums with
        main := .initializing
        consumers := fun t => ⟨.starting, sums t, []⟩ } := by
    simp [System.step, System.create]
  have hfirst : System.step v n { System.init sums with
        main := numberLoop c n 1
        consumers := fun t => ⟨.starting, sums t, []⟩ } (.start a) =
      some { System.init sums with
        main := numberLoop c n 1
        consumers := Function.update (fun t => ⟨.starting, sums t, []⟩) a ⟨.locking, 0, []⟩ } := rfl
  have hsecond : System.step v n { System.init sums with
        main := numberLoop c n 1
        consumers := Function.update (fun t => ⟨.starting, sums t, []⟩) a ⟨.locking, 0, []⟩ } (.start b) =
      some { System.init sums with
        main := numberLoop c n 1
        consumers := Function.update (Function.update (fun t => ⟨.starting, sums t, []⟩) a
          ⟨.locking, 0, []⟩) b ⟨.locking, 0, []⟩ } := by
    simp [System.step, System.start, System.pc, hab.symm]
  have hstarted := Reaches.head hcreated (.head (a := .init) rfl (.head hfirst (.head hsecond .refl)))
  refine ⟨_, (reaches_creating (v := v) sums le_rfl).trans hstarted, hmain, rfl, rfl, fun t => ?_, ?_, ?_, ?_⟩
  · simp only [System.pc, Function.update_apply]
    split_ifs <;> simp
  · simp [System.pc, hab]
  · simp [System.pc]
  · simp [hab]

/-- `a` has the first `m` odd numbers, whose sum is `m ^ 2`. -/
theorem reaches_square (sums : Fin c → Int) (hab : a ≠ b) (hn : n < INT_MAX) {m : Nat}
    (hm : 2 * m + 1 ≤ n) : ∃ σ, Reaches (System.step v n) (System.init sums) σ ∧
      Feeding a b (2 * m + 1) (m ^ 2) σ := by
  induction m with
  | zero => exact reaches_feeding sums hab (by omega)
  | succ m ih =>
    obtain ⟨σ, hreach, hfeeding⟩ := ih (by omega)
    obtain ⟨σ', hreach', hfeeding'⟩ := hfeeding.pair (v := v) hab (by omega) (by omega) (by omega) hn
    have hi : 2 * ((m + 1 : Nat) : Int) + 1 = 2 * m + 1 + 2 := by omega
    have hs : ((m + 1 : Nat) : Int) ^ 2 = m ^ 2 + (2 * m + 1) := by
      push_cast
      ring
    rw [hi, hs]
    exact ⟨σ', hreach.trans hreach', hfeeding'⟩

/-- `46341 ^ 2` is larger than `INT_MAX`. -/
theorem exists_not_inRange (sums : Fin c → Int) (hc : 2 ≤ c) (h1 : 92681 ≤ n) (hn : n < INT_MAX) :
    ∃ events σ, run (System.step v n) (System.init sums) events = some σ ∧ ¬ InRange σ := by
  have hab : (⟨0, by omega⟩ : Fin c) ≠ ⟨1, by omega⟩ := by simp
  obtain ⟨σ, hreach, hfeeding⟩ := reaches_square (v := v) sums hab hn (m := 46340) (by omega)
  obtain ⟨q, -, hlast⟩ := hfeeding.deliver (v := v) hfeeding.first (by omega) (by omega) hn
  obtain ⟨events, hrun⟩ := hreach.trans hlast
  refine ⟨events, _, hrun, fun hrange => ?_⟩
  have hle := (hrange.consumer ⟨0, by omega⟩ (by simp [System.pc, ConsumerPc.started])).2
  simp only [Function.update_self, hfeeding.sum] at hle
  exact absurd hle (by decide)

end Schedule

/-- No partial sum leaves the range of `int`, in any interleaving, exactly with a single consumer or up to
`n = 92680`. -/
theorem inRange_iff (v : Variant) (c : Nat) (n : Int) (hc : 1 ≤ c) (h1 : 1 ≤ n) (hn : n < INT_MAX) :
    (∀ (sums : Fin c → Int) (events : List (Event c)) (σ : System c),
      run (System.step v n) (System.init sums) events = some σ → InRange σ) ↔ c = 1 ∨ n ≤ 92680 := by
  constructor
  · intro hall
    by_contra hcon
    obtain ⟨hc1, hlarge⟩ := not_or.mp hcon
    obtain ⟨events, σ, hrun, hout⟩ :=
      exists_not_inRange (v := v) (fun _ : Fin c => 0) (by omega) (by omega : 92681 ≤ n) hn
    exact hout (hall _ events σ hrun)
  · intro hcase sums events σ hrun
    have hinv := Inv.of_run h1 hrun
    rcases hcase with rfl | hsmall
    · exact hinv.inRange (hinv.sum_added_mem_single h1 hn)
    · exact hinv.inRange (hinv.sum_added_mem hsmall)

theorem inRange_threshold :
    (∀ (sums : Fin 2 → Int) (events : List (Event 2)) (σ : System 2),
      run (System.step .condition 92680) (System.init sums) events = some σ → InRange σ) ∧
    ¬ ∀ (sums : Fin 2 → Int) (events : List (Event 2)) (σ : System 2),
      run (System.step .condition 92681) (System.init sums) events = some σ → InRange σ :=
  ⟨(inRange_iff .condition 2 92680 (by decide) (by decide) (by decide)).mpr (by decide),
    mt (inRange_iff .condition 2 92681 (by decide) (by decide) (by decide)).mp (by decide)⟩

theorem not_inRange_twoConsumers : ¬ ∀ (events : List (Event 2)) (σ : System 2),
    run (System.step .condition 92681) (System.init fun _ => 0) events = some σ → InRange σ := by
  intro hall
  obtain ⟨events, σ, hrun, hout⟩ :=
    exists_not_inRange (v := .condition) (n := 92681) (fun _ : Fin 2 => 0) le_rfl le_rfl (by decide)
  exact hout (hall events σ hrun)

end OsExercises.ProducerConsumer
