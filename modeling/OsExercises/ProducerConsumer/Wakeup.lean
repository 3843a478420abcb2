import OsExercises.ProducerConsumer.Conservation

/-!
# No wake-up is lost

`Attended σ`, an invariant of the variant that waits: while somebody sleeps, the consumers that will
test the queue again without being woken (`ConsumerPc.active`) are at least as many as its elements,
up to the one that was pushed and not yet signalled. A push that finds nobody asleep owes nothing; a
consumer goes to sleep only on an empty queue; one that steals an element is itself active before and,
unless it got a sentinel, afterwards.
-/

namespace OsExercises.ProducerConsumer

variable {c : Nat}

namespace ConsumerPc

/-- The consumer will test the queue again without being woken. -/
def active : ConsumerPc → Bool
  | .sleeping | .finished => false
  | .unlocking value | .deciding value => value ≠ INT_MAX
  | _ => true

/-- The consumer is neither blocked in `pthread_cond_wait` nor finished. -/
def awake : ConsumerPc → Bool
  | .sleeping | .finished => false
  | _ => true

theorem awake_of_active {p : ConsumerPc} (h : p.active = true) : p.awake = true := by
  cases p with
  | sleeping => cases h
  | finished => cases h
  | _ => rfl

end ConsumerPc

/-- An element was pushed that was not signalled. -/
def MainPc.owes : MainPc → Bool
  | .signalling _ => true
  | _ => false

def Attended (σ : System c) : Prop :=
  (∃ t, σ.pc t = .sleeping) →
    σ.queue.queue.length ≤ population ConsumerPc.active σ.pc + σ.main.owes.toNat

namespace Attended

variable {n : Int} {σ σ' : System c} {t : Fin c} {e : Event c}

theorem pc_update {k : Consumer} (hcons : σ'.consumers = Function.update σ.consumers t k) :
    σ'.pc = Function.update σ.pc t k.pc := by
  funext u
  show (σ'.consumers u).pc = _
  rw [hcons]
  exact Function.apply_update (fun _ k => k.pc) σ.consumers t _ u

theorem init (sums : Fin c → Int) : Attended (System.init sums) :=
  fun _ => Nat.zero_le _

theorem of_isEmpty (hqueue : σ.queue.queue = []) : Attended σ := by
  intro _
  rw [hqueue]
  exact Nat.zero_le _

/-- A step of `main`. -/
theorem mainMoved (h : Attended σ) (hpc : σ'.pc = σ.pc)
    (hlen : σ'.queue.queue.length + σ.main.owes.toNat ≤ σ.queue.queue.length + σ'.main.owes.toNat) :
    Attended σ' := by
  intro hsleeping
  rw [hpc] at hsleeping ⊢
  have hle := h hsleeping
  omega

/-- A step that brings a consumer to `p`, where it is not asleep. -/
theorem moved {p : ConsumerPc} (h : Attended σ) (hpc : σ'.pc = Function.update σ.pc t p)
    (hp : p ≠ .sleeping)
    (hlen : σ'.queue.queue.length + (σ.pc t).active.toNat + σ.main.owes.toNat ≤
      σ.queue.queue.length + p.active.toNat + σ'.main.owes.toNat) : Attended σ' := by
  rintro ⟨u, hu⟩
  have hut : u ≠ t := by
    rintro rfl
    rw [hpc, Function.update_self] at hu
    exact hp hu
  rw [hpc, Function.update_of_ne hut] at hu
  have hle := h ⟨u, hu⟩
  have hpopulation := population_update ConsumerPc.active σ.pc t p
  rw [hpc]
  omega

/-- A step that leaves the queue alone and after which the consumer is as active as before. -/
theorem go {k : Consumer} (h : Attended σ) (hpc : σ'.pc = Function.update σ.pc t k.pc)
    (hk : k.pc ≠ .sleeping) (hactive : (σ.pc t).active.toNat ≤ k.pc.active.toNat)
    (hqueue : σ'.queue = σ.queue) (hmain : σ.main.owes.toNat ≤ σ'.main.owes.toNat) :
    Attended σ' := by
  refine h.moved hpc hk ?_
  rw [hqueue]
  omega

theorem push {task : Task} (h : Attended σ) (hmain : σ.main = .pushing task) :
    Attended { σ with main := .signalling task, queue := myqueuePush σ.queue task.value } := by
  refine h.mainMoved rfl ?_
  rw [hmain]
  show (σ.queue.queue ++ [task.value]).length + 0 ≤ σ.queue.queue.length + 1
  rw [List.length_append, List.length_singleton]

theorem signal {task : Task} (h : Attended σ) (hmain : σ.main = .signalling task)
    (hpc : σ.pc t = .sleeping) :
    Attended { σ with main := .unlocking task, consumers := σ.go t .woken } := by
  refine h.moved (pc_update rfl) nofun ?_
  rw [hpc, hmain]
  exact Nat.le_refl _

theorem pop {value : Int} {q : MyQueue c} (h : Attended σ) (hpc : σ.pc t = .popping)
    (hpop : myqueuePop σ.queue t = some (value, q)) :
    Attended { σ with consumers := σ.go t (.unlocking value), queue := q } := by
  refine h.moved (pc_update rfl) nofun ?_
  show q.queue.length + _ + σ.main.owes.toNat ≤ σ.queue.queue.length + _ + σ.main.owes.toNat
  rw [hpc, (Channel.receive_cases hpop).1, List.length_cons]
  show q.queue.length + 1 + σ.main.owes.toNat ≤ _
  omega

theorem step (h : Attended σ) (hs : σ.step .condition n e = some σ') : Attended σ' := by
  cases System.step_cases hs with
  | createNext hmain _ =>
    exact h.go (pc_update rfl) nofun (Bool.toNat_le _) rfl (by rw [hmain]; exact Nat.le_refl _)
  | created hmain _ => exact h.mainMoved rfl (by rw [hmain]; exact Nat.le_refl _)
  | init _ => exact of_isEmpty rfl
  | mainLock hmain _ => exact h.mainMoved rfl (by rw [hmain]; exact Nat.le_refl _)
  | pushBusyWaiting hv _ => cases hv
  | pushCondition _ hmain => exact h.push hmain
  | signal hmain hpc => exact h.signal hmain hpc
  | signalNobody _ hpc => exact fun ⟨t, ht⟩ => absurd ht (hpc t)
  | mainUnlock hmain => exact h.mainMoved rfl (by rw [hmain]; exact Nat.le_refl _)
  | advanceNumber hmain _ => exact h.mainMoved rfl (by rw [hmain]; exact Nat.le_add_right _ _)
  | advanceSentinel hmain => exact h.mainMoved rfl (by rw [hmain]; exact Nat.le_add_right _ _)
  | joinNext hmain _ _ => exact h.mainMoved rfl (by rw [hmain]; exact Nat.le_refl _)
  | joined hmain _ => exact h.mainMoved rfl (by rw [hmain]; exact Nat.le_refl _)
  | start _ => exact h.go (pc_update rfl) nofun (Bool.toNat_le _) rfl (Nat.le_refl _)
  | lock _ _ => exact h.go (pc_update rfl) nofun (Bool.toNat_le _) rfl (Nat.le_refl _)
  | tryAgain hv _ _ => cases hv
  | sleep _ _ hempty => exact of_isEmpty hempty
  | found _ _ => exact h.go (pc_update rfl) nofun (Bool.toNat_le _) rfl (Nat.le_refl _)
  | wake _ => exact h.go (pc_update rfl) nofun (Bool.toNat_le _) rfl (Nat.le_refl _)
  | relock _ _ => exact h.go (pc_update rfl) nofun (Bool.toNat_le _) rfl (Nat.le_refl _)
  | pop hpc hpop => exact h.pop hpc hpop
  | unlock hpc =>
    exact h.go (pc_update rfl) nofun (by rw [hpc]; exact Nat.le_refl _) rfl (Nat.le_refl _)
  | stop hpc =>
    exact h.go (pc_update rfl) nofun (by rw [hpc]; exact Nat.le_refl _) rfl (Nat.le_refl _)
  | add _ _ => exact h.go (pc_update rfl) nofun (Bool.toNat_le _) rfl (Nat.le_refl _)

theorem of_run {sums : Fin c → Int} {events : List (Event c)}
    (hr : Transition.run (System.step .condition n) (System.init sums) events = some σ) : Attended σ :=
  Transition.run_inv (fun _ _ _ h hs => h.step hs) (init sums) hr

/-- The mutex is free, so that the last element pushed was signalled. -/
theorem queue_le_active (h : Attended σ) (hi : Inv n σ) (hmutex : σ.mutex = none)
    (hsleeping : ∃ t, σ.pc t = .sleeping) :
    σ.queue.queue.length ≤ population ConsumerPc.active σ.pc := by
  have howes : σ.main.owes = false := by
    cases hmain : σ.main with
    | signalling task =>
      have hheld := (hi.holder .main).mpr (congrArg MainPc.holds hmain)
      rw [hmutex] at hheld
      cases hheld
    | _ => rfl
  have hle := h hsleeping
  rw [howes] at hle
  exact hle

end Attended

/-! ### Somebody can go on -/

section GoesOn

variable {n : Int} {σ : System c} {t : Fin c}

/-- Some step other than a spurious wake-up and a join is enabled. -/
def CanGoOn (n : Int) (σ : System c) : Prop :=
  ∃ e σ', e.spurious = false ∧ e ≠ .join ∧ σ.step .condition n e = some σ'

theorem canGoOn_of_isSome (e : Event c) (hspurious : e.spurious = false) (hjoin : e ≠ .join)
    (h : (σ.step .condition n e).isSome = true) : CanGoOn n σ := by
  obtain ⟨σ', hs⟩ := Option.isSome_iff_exists.mp h
  exact ⟨e, σ', hspurious, hjoin, hs⟩

theorem canGoOn_of_main_holds (hmain : σ.main.holds = true) : CanGoOn n σ := by
  cases hpc : σ.main with
  | pushing task => exact canGoOn_of_isSome .push rfl (by simp) (by simp [System.step, System.push, hpc])
  | signalling task =>
    by_cases hsleeping : ∃ t, σ.pc t = .sleeping
    · obtain ⟨t, ht⟩ := hsleeping
      exact canGoOn_of_isSome (.signal (some t)) rfl (by simp)
        (by simp [System.step, System.signal, hpc, ht])
    · refine canGoOn_of_isSome (.signal none) rfl (by simp) ?_
      have hnobody : ∀ t, σ.pc t ≠ .sleeping := fun t ht => hsleeping ⟨t, ht⟩
      simp [System.step, System.signal, hpc, hnobody]
  | unlocking task =>
    exact canGoOn_of_isSome .mainUnlock rfl (by simp) (by simp [System.step, System.mainUnlock, hpc])
  | _ => rw [hpc] at hmain; cases hmain

theorem canGoOn_of_consumer_holds (hi : Inv n σ) (hpc : (σ.pc t).holds = true) : CanGoOn n σ := by
  cases hp : σ.pc t with
  | testing =>
    refine canGoOn_of_isSome (.test t) rfl (by simp) ?_
    simp only [System.step, System.test, hp]
    split <;> rfl
  | popping =>
    refine canGoOn_of_isSome (.pop t) rfl (by simp) ?_
    obtain ⟨a, q, hpop⟩ := Channel.receive_isSome (t := t) (hi.popping t hp)
    simp [System.step, System.pop, hp, myqueuePop, hpop]
  | unlocking value =>
    exact canGoOn_of_isSome (.unlock t) rfl (by simp) (by simp [System.step, System.unlock, hp])
  | _ => rw [hp] at hpc; cases hpc

/-- With the mutex free every consumer goes on that has been created and neither sleeps nor has
finished. -/
theorem canGoOn_of_awake (hi : Inv n σ) (hmutex : σ.mutex = none) (hunborn : σ.pc t ≠ .unborn)
    (hawake : (σ.pc t).awake = true) : CanGoOn n σ := by
  cases hp : σ.pc t with
  | unborn => exact absurd hp hunborn
  | starting => exact canGoOn_of_isSome (.start t) rfl (by simp) (by simp [System.step, System.start, hp])
  | locking =>
    exact canGoOn_of_isSome (.lock t) rfl (by simp) (by simp [System.step, System.lock, hp, hmutex])
  | woken =>
    exact canGoOn_of_isSome (.relock t) rfl (by simp) (by simp [System.step, System.relock, hp, hmutex])
  | deciding value =>
    refine canGoOn_of_isSome (.decide t) rfl (by simp) ?_
    simp only [System.step, System.decide, hp]
    split <;> rfl
  | sleeping => rw [hp] at hawake; cases hawake
  | finished => rw [hp] at hawake; cases hawake
  | _ => exact canGoOn_of_consumer_holds hi (t := t) (by rw [hp]; rfl)

/-- If all sentinels were pushed and popped, no consumer is without one. -/
theorem Inv.queue_ne_nil (hi : Inv n σ)
    (hsent : σ.queue.sent = numbers n.toNat ++ List.replicate c INT_MAX)
    (hpcs : ∀ u, (σ.pc u).awake = false) (ht : σ.pc t = .sleeping) : σ.queue.queue ≠ [] := by
  intro hqueue
  have hfinished : ∀ u, (σ.queue.receivedBy u).count INT_MAX =
      (decide (σ.pc u = .finished)).toNat := by
    intro u
    cases hu : σ.pc u with
    | finished => exact hi.count_sentinel hu
    | sleeping =>
      have hheld : (σ.consumers u).pc.held = [] := congrArg ConsumerPc.held hu
      rw [(hi.consumer u).received, hheld, List.append_nil]
      exact List.count_eq_zero.mpr (hi.consumer u).added
    | _ =>
      have hawake := hpcs u
      rw [hu] at hawake
      cases hawake
  have hall := σ.queue.sum_count_receivedBy INT_MAX
  have hfifo := σ.queue.fifo
  rw [hqueue, List.append_nil, hsent] at hfifo
  rw [← hfifo, List.count_append, List.count_replicate_self,
    Finset.sum_congr rfl fun u _ => hfinished u] at hall
  have hlt : ∑ u, (decide (σ.pc u = .finished)).toNat < Fintype.card (Fin c) :=
    population_lt_card (P := fun p => decide (p = ConsumerPc.finished)) (t := t) (by rw [ht]; rfl)
  rw [Fintype.card_fin] at hlt
  omega

theorem canGoOn (hi : Inv n σ) (ha : Attended σ)
    (hsent : σ.queue.sent = numbers n.toNat ++ List.replicate c INT_MAX)
    (hc : 1 ≤ c) (ht : σ.pc t ≠ .finished) : CanGoOn n σ := by
  cases hmutex : σ.mutex with
  | some u =>
    have hu := (hi.holder u).mp hmutex
    cases u with
    | main => exact canGoOn_of_main_holds hu
    | consumer u => exact canGoOn_of_consumer_holds hi hu
  | none =>
    have hborn : ∀ u, σ.pc u ≠ .unborn := by
      refine hi.born rfl ?_
      intro i hmain
      have hempty := hi.sent
      rw [hmain, hsent] at hempty
      have hreplicate := (List.append_eq_nil_iff.mp hempty).2
      rw [List.replicate_eq_nil_iff] at hreplicate
      omega
    by_cases hawake : ∃ u, (σ.pc u).awake = true
    · obtain ⟨u, hu⟩ := hawake
      exact canGoOn_of_awake hi hmutex (hborn u) hu
    · have hpcs : ∀ u, (σ.pc u).awake = false := fun u => by
        simpa using fun hu => hawake ⟨u, hu⟩
      have hsleeping : σ.pc t = .sleeping := by
        have htawake := hpcs t
        cases hp : σ.pc t with
        | sleeping => rfl
        | finished => exact absurd hp ht
        | _ => rw [hp] at htawake; cases htawake
      have hle := ha.queue_le_active hi hmutex ⟨t, hsleeping⟩
      have hzero : population ConsumerPc.active σ.pc = 0 := by
        refine population_eq_zero.mpr ?_
        intro u
        by_contra hu
        have hactive := ConsumerPc.awake_of_active (by simpa using hu)
        rw [hpcs u] at hactive
        cases hactive
      rw [hzero] at hle
      exact absurd (List.length_eq_zero_iff.mp (by omega)) (hi.queue_ne_nil hsent hpcs hsleeping)

end GoesOn

/-- With the mutex free nobody sleeps or there are enough consumers awake for the elements in the
queue; once all sentinels are pushed, no state with an unfinished consumer is stuck. -/
structure SignalsSuffice (n : Int) (σ : System c) : Prop where
  awake : σ.mutex = none → (∀ t, σ.pc t ≠ .sleeping) ∨ σ.queue.queue.length ≤
    (Finset.univ.filter fun t => σ.pc t ≠ .sleeping ∧ σ.pc t ≠ .finished).card
  goesOn : σ.queue.sent = numbers n.toNat ++ List.replicate c INT_MAX →
    (∃ t, σ.pc t ≠ .finished) → CanGoOn n σ

theorem signalsSuffice (n : Int) (sums : Fin c → Int) (events : List (Event c)) (σ : System c)
    (hc : 1 ≤ c) (h1 : 1 ≤ n)
    (hr : Transition.run (System.step .condition n) (System.init sums) events = some σ) :
    SignalsSuffice n σ := by
  have hi : Inv n σ := Inv.of_run h1 hr
  have ha := Attended.of_run hr
  refine ⟨?_, ?_⟩
  · intro hmutex
    by_cases hsleeping : ∃ t, σ.pc t = .sleeping
    · right
      have hle := ha.queue_le_active hi hmutex hsleeping
      rw [population_eq_card] at hle
      refine hle.trans (Finset.card_le_card ?_)
      intro t ht
      have hactive := (Finset.mem_filter.mp ht).2
      refine Finset.mem_filter.mpr ⟨Finset.mem_univ t, ?_, ?_⟩ <;> rintro hpc <;>
        rw [hpc] at hactive <;> cases hactive
    · exact .inl fun t ht => hsleeping ⟨t, ht⟩
  · rintro hsent ⟨t, ht⟩
    exact canGoOn hi ha hsent hc ht

/-- The first element was stolen: consumer 0, which was woken for it, sleeps again. -/
theorem signalsSuffice_stolen : ∃ σ : System 2,
    Transition.run (System.step .condition 2) (System.init fun _ => 7) ((stolen 0 1).take 20) = some σ ∧
    σ.pc 0 = .sleeping ∧ σ.pc 1 = .locking ∧ SignalsSuffice 2 σ := by
  have hplaces : (Transition.run (System.step .condition 2) (System.init fun _ => 7)
      ((stolen 0 1).take 20)).map (fun σ => (σ.pc 0, σ.pc 1)) = some (.sleeping, .locking) := by
    decide +kernel
  obtain ⟨σ, hr, hplaces⟩ := Option.map_eq_some_iff.mp hplaces
  obtain ⟨h0, h1⟩ := Prod.mk.inj hplaces
  exact ⟨σ, hr, h0, h1, signalsSuffice 2 _ _ σ (by decide) (by decide) hr⟩

end OsExercises.ProducerConsumer
