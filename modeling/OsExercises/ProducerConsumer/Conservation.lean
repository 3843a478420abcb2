import OsExercises.ProducerConsumer.Invariant

/-!
# No element is lost or added twice

When all threads have finished, `c` of the received values are sentinels (one for each consumer), and
these are all that were sent; the last of them was sent last, so that the queue, which is what was
sent after the last received value, is empty. What the consumers added is then what was sent without
the sentinels.
-/

namespace OsExercises.ProducerConsumer

variable {c : Nat}

/-! ### The numbers -/

theorem value_number (i : Int) : Task.value (.number i) = if i % 2 ≠ 0 then i else -i := rfl

theorem natAbs_value (i : Int) : (Task.value (.number i)).natAbs = i.natAbs := by
  rw [value_number]
  split <;> omega

theorem mem_numbers {k : Nat} {a : Int} :
    a ∈ numbers k ↔ ∃ i : Int, 1 ≤ i ∧ i ≤ k ∧ a = Task.value (.number i) := by
  unfold numbers
  rw [List.mem_map]
  constructor
  · rintro ⟨j, hj, rfl⟩
    have hlt := List.mem_range.mp hj
    exact ⟨(j + 1 : Nat), by omega, by omega, rfl⟩
  · rintro ⟨i, h1, hk, rfl⟩
    refine ⟨i.toNat - 1, List.mem_range.mpr (by omega), ?_⟩
    have hi : ((i.toNat - 1 + 1 : Nat) : Int) = i := by omega
    rw [hi]

theorem nodup_numbers (k : Nat) : (numbers k).Nodup := by
  refine List.Nodup.map ?_ List.nodup_range
  intro i j hij
  have habs := congrArg Int.natAbs hij
  simp only [natAbs_value] at habs
  omega

theorem notMem_numbers {k : Nat} (hk : (k : Int) < INT_MAX) : INT_MAX ∉ numbers k := by
  intro hmem
  obtain ⟨i, h1, hi, heq⟩ := mem_numbers.mp hmem
  have habs := natAbs_value i
  rw [← heq] at habs
  unfold INT_MAX at *
  omega

theorem sum_numbers (k : Nat) :
    (numbers k).sum = if (k : Int) % 2 = 0 then -((k : Int) / 2) else ((k : Int) + 1) / 2 := by
  induction k with
  | zero => rfl
  | succ k ih =>
    rw [numbers_succ, List.sum_append, ih, List.sum_singleton, value_number]
    split_ifs <;> omega

/-! ### When all have finished -/

namespace System

def Finished (σ : System c) : Prop :=
  (∃ finalSum, σ.main = .finished finalSum) ∧ ∀ t, σ.pc t = .finished

end System

/-- Every number was added by exactly one consumer, exactly once, and nothing else was added; every
consumer popped one sentinel. -/
structure Conserved (n : Int) (σ : System c) : Prop where
  addedOnce : ∀ i, 1 ≤ i → i ≤ n → ∃ t, (σ.consumers t).added.count (Task.value (.number i)) = 1 ∧
    ∀ u, u ≠ t → Task.value (.number i) ∉ (σ.consumers u).added
  addedOnly : ∀ t, ∀ a ∈ (σ.consumers t).added, ∃ i, 1 ≤ i ∧ i ≤ n ∧ a = Task.value (.number i)
  sentinel : ∀ t, (σ.queue.receivedBy t).count INT_MAX = 1
  queue : σ.queue.queue = []
  finalSum : σ.main = .finished (if n % 2 = 0 then -(n / 2) else (n + 1) / 2)

namespace Inv

variable {n : Int} {σ : System c} {t : Fin c}

theorem received_of_finished (h : Inv n σ) (ht : σ.pc t = .finished) :
    σ.queue.receivedBy t = (σ.consumers t).added ++ [INT_MAX] := by
  rw [(h.consumer t).received]
  exact congrArg (_ ++ ConsumerPc.held ·) ht

theorem count_sentinel (h : Inv n σ) (ht : σ.pc t = .finished) :
    (σ.queue.receivedBy t).count INT_MAX = 1 := by
  rw [h.received_of_finished ht, List.count_append, List.count_eq_zero.mpr (h.consumer t).added,
    List.count_singleton_self]

theorem count_of_ne {a : Int} (h : Inv n σ) (ht : σ.pc t = .finished) (ha : a ≠ INT_MAX) :
    (σ.queue.receivedBy t).count a = (σ.consumers t).added.count a := by
  rw [h.received_of_finished ht, List.count_append,
    List.count_eq_zero.mpr (fun hmem => ha (List.mem_singleton.mp hmem)), Nat.add_zero]

theorem sent_of_finished (h : Inv n σ) (hfin : σ.Finished) :
    σ.queue.sent = numbers n.toNat ++ List.replicate c INT_MAX := by
  obtain ⟨finalSum, hmain⟩ := hfin.1
  rw [h.sent, hmain]
  rfl

/-- All the sentinels were received, and the last value sent is one of them. -/
theorem queue_of_finished (h : Inv n σ) (hc : 1 ≤ c) (hn : n < INT_MAX) (hfin : σ.Finished) :
    σ.queue.queue = [] := by
  have hsent := h.sent_of_finished hfin
  have hreceived : (σ.queue.received.map Prod.snd).count INT_MAX = c := by
    rw [← σ.queue.sum_count_receivedBy INT_MAX,
      Finset.sum_congr rfl fun t _ => h.count_sentinel (hfin.2 t)]
    simp
  have hcount : σ.queue.sent.count INT_MAX = c := by
    have hnot : INT_MAX ∉ numbers n.toNat := notMem_numbers (by unfold INT_MAX at *; omega)
    rw [hsent, List.count_append, List.count_eq_zero.mpr hnot, List.count_replicate_self, Nat.zero_add]
  have hrest : σ.queue.queue.count INT_MAX = 0 := by
    rw [σ.queue.fifo, List.count_append, hreceived] at hcount
    omega
  rcases List.eq_nil_or_concat' σ.queue.queue with hnil | ⟨front, a, hqueue⟩
  · exact hnil
  · obtain ⟨k, rfl⟩ : ∃ k, c = k + 1 := ⟨c - 1, by omega⟩
    have hlast : σ.queue.received.map Prod.snd ++ front ++ [a] =
        numbers n.toNat ++ List.replicate k INT_MAX ++ [INT_MAX] := by
      rw [List.append_assoc, ← hqueue, ← σ.queue.fifo, hsent, List.replicate_succ',
        List.append_assoc]
    obtain rfl : a = INT_MAX := (List.append_singleton_inj.mp hlast).2
    rw [hqueue, List.count_append, List.count_singleton_self] at hrest
    omega

theorem received_eq (h : Inv n σ) (hc : 1 ≤ c) (hn : n < INT_MAX) (hfin : σ.Finished) :
    σ.queue.received.map Prod.snd = numbers n.toNat ++ List.replicate c INT_MAX := by
  rw [← h.sent_of_finished hfin, σ.queue.fifo, h.queue_of_finished hc hn hfin, List.append_nil]

theorem sum_added (h : Inv n σ) (hc : 1 ≤ c) (hn : n < INT_MAX) (hfin : σ.Finished) :
    ∑ t, (σ.consumers t).sum = (numbers n.toNat).sum := by
  have hreceived : ∀ t, ((σ.queue.receivedBy t).map id).sum = (σ.consumers t).sum + INT_MAX := by
    intro t
    have hsum := (h.consumer t).sum (congrArg ConsumerPc.started (hfin.2 t))
    rw [List.map_id, h.received_of_finished (hfin.2 t), List.sum_append, List.sum_singleton, hsum]
  have hall := σ.queue.sum_receivedBy id
  rw [h.received_eq hc hn hfin, Finset.sum_congr rfl fun t _ => hreceived t,
    Finset.sum_add_distrib, List.map_id, List.sum_append, List.sum_replicate] at hall
  simpa using hall

theorem conserved (h : Inv n σ) (hc : 1 ≤ c) (h1 : 1 ≤ n) (hn : n < INT_MAX) (hfin : σ.Finished) :
    Conserved n σ := by
  have hreceived := h.received_eq hc hn hfin
  have hcast : (n.toNat : Int) = n := by omega
  refine ⟨?_, ?_, fun t => h.count_sentinel (hfin.2 t), h.queue_of_finished hc hn hfin, ?_⟩
  · intro i hi1 hin
    have hmem : Task.value (.number i) ∈ numbers n.toNat := mem_numbers.mpr ⟨i, hi1, by omega, rfl⟩
    have hne : Task.value (.number i) ≠ INT_MAX := by
      intro heq
      exact notMem_numbers (by omega) (heq ▸ hmem)
    have hcount : ∑ t, (σ.consumers t).added.count (Task.value (.number i)) = 1 := by
      rw [← Finset.sum_congr rfl fun t _ => h.count_of_ne (hfin.2 t) hne,
        σ.queue.sum_count_receivedBy, hreceived, List.count_append,
        List.count_eq_one_of_mem (nodup_numbers _) hmem, List.count_replicate, if_neg]
      simpa using Ne.symm hne
    obtain ⟨t, ht, hothers⟩ := exists_eq_one_of_sum_eq_one hcount
    exact ⟨t, ht, fun u hu => List.count_eq_zero.mp (hothers u hu)⟩
  · intro t a ha
    have hsent : a ∈ σ.queue.sent := by
      refine Channel.mem_sent_of_mem_receivedBy (t := t) ?_
      rw [h.received_of_finished (hfin.2 t)]
      exact List.mem_append_left _ ha
    rw [h.sent_of_finished hfin] at hsent
    rcases List.mem_append.mp hsent with hnumber | hsentinel
    · rw [← hcast]
      exact mem_numbers.mp hnumber
    · exact absurd ((List.mem_replicate.mp hsentinel).2 ▸ ha) (h.consumer t).added
  · obtain ⟨finalSum, hmain⟩ := hfin.1
    have hjoined := h.joined
    rw [hmain] at hjoined
    rw [hmain, hjoined.1, h.sum_added hc hn hfin, sum_numbers, hcast]

end Inv

theorem conserved_of_finished (v : Variant) (n : Int) (sums : Fin c → Int) (events : List (Event c))
    (σ : System c) (hc : 1 ≤ c) (h1 : 1 ≤ n) (hn : n < INT_MAX)
    (hr : Transition.run (System.step v n) (System.init sums) events = some σ) (hfin : σ.Finished) :
    Conserved n σ :=
  (Inv.of_run h1 hr).conserved hc h1 hn hfin

/-- Two consumers and the numbers `1, -2`; the first number wakes `a`, but `b` pops it. -/
def stolen (a b : Fin 2) : List (Event 2) :=
  [.create, .start a, .lock a, .test a, .create, .create, .init, .mainLock, .push, .signal (some a),
    .mainUnlock, .advance, .start b, .lock b, .test b, .pop b, .unlock b, .decide b, .relock a, .test a,
    .mainLock, .push, .signal (some a), .mainUnlock, .advance, .relock a, .test a, .pop a, .unlock a,
    .decide a, .mainLock, .push, .signal none, .mainUnlock, .advance, .mainLock, .push, .signal none,
    .mainUnlock, .advance, .lock a, .test a, .pop a, .unlock a, .decide a, .lock b, .test b, .pop b,
    .unlock b, .decide b, .join, .join, .join]

theorem conserved_stolen : ∃ σ : System 2,
    Transition.run (System.step .condition 2) (System.init fun _ => 7) (stolen 0 1) = some σ ∧
    σ.main = .finished (-1) ∧ Conserved 2 σ := by
  have hplaces : (Transition.run (System.step .condition 2) (System.init fun _ => 7) (stolen 0 1)).map
      (fun σ => (σ.main, σ.pc 0, σ.pc 1)) = some (.finished (-1), .finished, .finished) := by
    decide +kernel
  obtain ⟨σ, hr, hplaces⟩ := Option.map_eq_some_iff.mp hplaces
  obtain ⟨hmain, hplaces⟩ := Prod.mk.inj hplaces
  obtain ⟨h0, h1⟩ := Prod.mk.inj hplaces
  have hfin : σ.Finished := ⟨⟨_, hmain⟩, Fin.forall_fin_two.mpr ⟨h0, h1⟩⟩
  exact ⟨σ, hr, hmain, conserved_of_finished .condition 2 _ (stolen 0 1) σ (by decide) (by decide) (by decide)
    hr hfin⟩

end OsExercises.ProducerConsumer
