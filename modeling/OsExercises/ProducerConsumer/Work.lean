import OsExercises.Lib.Budget
import OsExercises.ProducerConsumer.Wakeup

/-!
# The work of the threads

A consumer that finds the queue empty does so for nothing when it tries again at once, and a spurious
wake-up lets a consumer look at the queue for nothing. Every other step is paid for: by the elements that
`main` has still to push, by those in the queue, and by what a consumer has begun. So a run is as long as
its idle steps make it (`System.weight`). As long as not everything is finished some step other than a
spurious wake-up is enabled, in either variant.
-/

namespace OsExercises.ProducerConsumer
open Transition

variable {c : Nat}

/-! ### What is still to be done -/

/-- The elements to be pushed after this one. -/
def Task.after (c : Nat) (n : Int) : Task → Nat
  | .number i => (n - i).toNat + c
  | .sentinel i => c - i - 1

/-- Each element costs `main` five steps, the consumer that pops it another five, and may wake a consumer
that finds the queue empty. -/
def MainPc.weight (c : Nat) (n : Int) : MainPc → Nat
  | .creating i => 4 * (c - i) + 12 * (n.toNat + c) + c + 3
  | .initializing => 12 * (n.toNat + c) + c + 2
  | .locking task => 12 * task.after c n + c + 13
  | .pushing task => 12 * task.after c n + c + 12
  | .signalling task => 12 * task.after c n + c + 6
  | .unlocking task => 12 * task.after c n + c + 3
  | .advancing task => 12 * task.after c n + c + 2
  | .joining i _ => c - i + 1
  | .finished _ => 0

def ConsumerPc.weight : ConsumerPc → Nat
  | .unborn | .sleeping | .popping | .finished => 0
  | .testing => 1
  | .locking | .woken => 2
  | .starting | .deciding _ => 3
  | .unlocking _ => 4

namespace System

def weight (n : Int) (σ : System c) : Nat :=
  σ.main.weight c n + ∑ t, (σ.pc t).weight + 5 * σ.queue.queue.length

/-- The consumer looks at the empty queue once more, or is woken for no reason. -/
def idle (v : Variant) (σ : System c) : Event c → Bool
  | .wake _ => true
  | .test _ =>
    match v with
    | .busyWaiting => myqueueIsEmpty σ.queue
    | .condition => false
  | _ => false

end System

theorem weight_sentinelLoop (n : Int) (i : Nat) :
    (sentinelLoop c i).weight c n ≤ 12 * (c - i) + c + 1 := by
  unfold sentinelLoop
  split
  · simp only [MainPc.weight, Task.after]
    omega
  · simp only [MainPc.weight]
    omega

theorem weight_numberLoop (n i : Int) :
    (numberLoop c n i).weight c n ≤ 12 * ((n + 1 - i).toNat + c) + c + 1 := by
  unfold numberLoop
  split
  · simp only [MainPc.weight, Task.after]
    omega
  · have hle := weight_sentinelLoop (c := c) n 0
    omega

section Weight

variable {v : Variant} {n : Int} {σ σ' : System c} {t : Fin c} {e : Event c}

/-- A step of `main` that leaves the consumers alone. -/
theorem weight_main (hpc : σ'.pc = σ.pc)
    (hlt : σ'.main.weight c n + 5 * σ'.queue.queue.length < σ.main.weight c n + 5 * σ.queue.queue.length) :
    σ'.weight n < σ.weight n := by
  simp only [System.weight, hpc]
  omega

/-- A step of the consumer `t`, which was at `p`. -/
theorem weight_moved {p : ConsumerPc} {j : Consumer} {k : Nat} (hpc : σ.pc t = p)
    (hcons : σ'.consumers = Function.update σ.consumers t j)
    (hlt : σ'.main.weight c n + j.pc.weight + 5 * σ'.queue.queue.length <
      σ.main.weight c n + p.weight + 5 * σ.queue.queue.length + k) :
    σ'.weight n < σ.weight n + k := by
  have hweights : (fun u => (σ'.pc u).weight) =
      Function.update (fun u => (σ.pc u).weight) t j.pc.weight := by
    rw [Attended.pc_update hcons]
    funext u
    exact Function.apply_update (fun _ => ConsumerPc.weight) σ.pc t j.pc u
  have hsum : ∑ u, (σ'.pc u).weight + p.weight = ∑ u, (σ.pc u).weight + j.pc.weight := by
    rw [hweights, ← hpc]
    exact sum_update (fun u => (σ.pc u).weight) t j.pc.weight
  simp only [System.weight]
  omega

theorem weight_go {p : ConsumerPc} {j : Consumer} (hmain : σ'.main = σ.main) (hqueue : σ'.queue = σ.queue)
    (hpc : σ.pc t = p) (hcons : σ'.consumers = Function.update σ.consumers t j)
    (hlt : j.pc.weight < p.weight) : σ'.weight n < σ.weight n := by
  refine weight_moved (k := 0) hpc hcons ?_
  rw [hmain, hqueue]
  omega

/-- Only an idle step may raise the weight, and by two at most. -/
theorem weight_step (hi : Inv n σ) (hs : σ.step v n e = some σ') :
    σ'.weight n < σ.weight n + 3 * (σ.idle v e).toNat := by
  have hok := hi.main
  cases System.step_cases hs with
  | createNext hmain hlt =>
    refine Nat.lt_add_right _ (weight_moved (k := 0) ((hi.unborn _).mpr ⟨_, hmain, Nat.le_refl _⟩) rfl ?_)
    rw [hmain]
    simp only [MainPc.weight, ConsumerPc.weight]
    omega
  | init hmain =>
    refine Nat.lt_add_right _ (weight_main rfl ?_)
    have hle := weight_numberLoop (c := c) n 1
    rw [hmain, MainPc.weight]
    simp only [myqueueInit, Channel.empty, List.length_nil]
    omega
  | created hmain | mainLock hmain | joined hmain | signalNobody hmain | mainUnlock hmain | joinNext hmain =>
    refine Nat.lt_add_right _ (weight_main rfl ?_)
    rw [hmain]
    simp only [MainPc.weight]
    omega
  | pushBusyWaiting hv hmain | pushCondition hv hmain =>
    refine Nat.lt_add_right _ (weight_main rfl ?_)
    rw [hmain]
    simp only [MainPc.weight, myqueuePush, Channel.send, List.length_append, List.length_singleton]
    omega
  | signal hmain hpc =>
    refine Nat.lt_add_right _ (weight_moved (k := 0) hpc rfl ?_)
    rw [hmain]
    simp only [MainPc.weight, ConsumerPc.weight]
    omega
  | @advanceNumber i j hmain hj =>
    refine Nat.lt_add_right _ (weight_main rfl ?_)
    have hle := weight_numberLoop (c := c) n j
    obtain ⟨rfl, -⟩ := intAdd?_cases hj
    rw [hmain] at hok ⊢
    obtain ⟨h1, hin⟩ := hok
    simp only [MainPc.weight, Task.after] at hle ⊢
    omega
  | @advanceSentinel i hmain =>
    refine Nat.lt_add_right _ (weight_main rfl ?_)
    have hle := weight_sentinelLoop (c := c) n (i + 1)
    rw [hmain, MainPc.weight, Task.after]
    dsimp only
    omega
  | start hpc | lock hpc | sleep _ hpc | found hpc | relock hpc | unlock hpc | stop hpc | add hpc =>
    refine Nat.lt_add_right _ (weight_go rfl rfl hpc rfl ?_)
    simp [ConsumerPc.weight]
  | @tryAgain t hv hpc hempty =>
    subst hv
    have hidle : σ.idle .busyWaiting (.test t) = true := System.isEmpty_iff.mpr hempty
    rw [hidle]
    refine weight_moved hpc rfl ?_
    simp only [ConsumerPc.weight, Bool.toNat_true]
    omega
  | wake hpc =>
    refine weight_moved hpc rfl ?_
    simp only [ConsumerPc.weight, System.idle, Bool.toNat_true]
    omega
  | pop hpc hpop =>
    refine Nat.lt_add_right _ (weight_moved (k := 0) hpc rfl ?_)
    have hqueue := congrArg List.length (Channel.receive_cases hpop).1
    rw [List.length_cons] at hqueue
    simp only [ConsumerPc.weight]
    omega

end Weight

/-! ### Something can go on -/

section GoesOn

variable {v : Variant} {n : Int} {σ σ' : System c} {t : Fin c} {e : Event c}

/-- Some step other than a spurious wake-up is enabled. -/
def Enabled (v : Variant) (n : Int) (σ : System c) : Prop :=
  ∃ e σ', e.spurious = false ∧ σ.step v n e = some σ'

theorem enabled_of_isSome (e : Event c) (hspurious : e.spurious = false)
    (h : (σ.step v n e).isSome = true) : Enabled v n σ := by
  obtain ⟨σ', hs⟩ := Option.isSome_iff_exists.mp h
  exact ⟨e, σ', hspurious, hs⟩

/-- Who tries again at once does not sleep. -/
def NobodySleeps (σ : System c) : Prop := ∀ t, σ.pc t ≠ .sleeping

theorem NobodySleeps.step (h : NobodySleeps σ) (hs : σ.step .busyWaiting n e = some σ') : NobodySleeps σ' := by
  have hmoved : ∀ t k, σ'.consumers = Function.update σ.consumers t k → k.pc ≠ .sleeping →
      NobodySleeps σ' := by
    intro t k hcons hk u
    rw [Attended.pc_update hcons]
    by_cases hut : u = t
    · subst hut
      rw [Function.update_self]
      exact hk
    · rw [Function.update_of_ne hut]
      exact h u
  cases System.step_cases hs with
  | created | init | mainLock | pushBusyWaiting | pushCondition | signalNobody | mainUnlock | advanceNumber
  | advanceSentinel | joinNext | joined => exact h
  | sleep hv => cases hv
  | createNext | signal | start | lock | tryAgain | found | wake | relock | pop | unlock | stop | add =>
    exact hmoved _ _ rfl nofun

/-- With the mutex free a consumer goes on unless it sleeps, is finished or is to be created. -/
theorem enabled_of_consumer (hi : Inv n σ) (hmutex : σ.mutex = none) (hunborn : σ.pc t ≠ .unborn)
    (hsleeping : σ.pc t ≠ .sleeping) (hfinished : σ.pc t ≠ .finished) : Enabled v n σ := by
  cases hp : σ.pc t with
  | unborn => exact absurd hp hunborn
  | sleeping => exact absurd hp hsleeping
  | finished => exact absurd hp hfinished
  | starting => exact enabled_of_isSome (.start t) rfl (by simp [System.step, System.start, hp])
  | locking => exact enabled_of_isSome (.lock t) rfl (by simp [System.step, System.lock, hp, hmutex])
  | woken => exact enabled_of_isSome (.relock t) rfl (by simp [System.step, System.relock, hp, hmutex])
  | deciding value =>
    refine enabled_of_isSome (.decide t) rfl ?_
    simp only [System.step, System.decide, hp]
    split <;> rfl
  | testing | popping | unlocking =>
    have hheld := (hi.holder (.consumer t)).mpr (congrArg ConsumerPc.holds hp)
    rw [hmutex] at hheld
    cases hheld

/-- Who holds the mutex goes on. -/
theorem enabled_of_holder (hi : Inv n σ) {u : Thread c} (hmutex : σ.mutex = some u) : Enabled v n σ := by
  have hu := (hi.holder u).mp hmutex
  cases u with
  | main =>
    have hheld : σ.main.holds = true := hu
    cases hpc : σ.main with
    | pushing task => exact enabled_of_isSome .push rfl (by simp [System.step, System.push, hpc])
    | unlocking task =>
      exact enabled_of_isSome .mainUnlock rfl (by simp [System.step, System.mainUnlock, hpc])
    | signalling task =>
      by_cases hsleeping : ∃ t, σ.pc t = .sleeping
      · obtain ⟨t, ht⟩ := hsleeping
        exact enabled_of_isSome (.signal (some t)) rfl (by simp [System.step, System.signal, hpc, ht])
      · refine enabled_of_isSome (.signal none) rfl ?_
        simp [System.step, System.signal, hpc, not_exists.mp hsleeping]
    | _ => rw [hpc] at hheld; cases hheld
  | consumer t =>
    have hheld : (σ.pc t).holds = true := hu
    cases hpc : σ.pc t with
    | testing =>
      refine enabled_of_isSome (.test t) rfl ?_
      simp only [System.step, System.test, hpc]
      split
      · cases v <;> rfl
      · rfl
    | popping =>
      refine enabled_of_isSome (.pop t) rfl ?_
      obtain ⟨a, q, hpop⟩ := Channel.receive_isSome (t := t) (hi.popping t hpc)
      simp [System.step, System.pop, hpc, myqueuePop, hpop]
    | unlocking value =>
      exact enabled_of_isSome (.unlock t) rfl (by simp [System.step, System.unlock, hpc])
    | _ => rw [hpc] at hheld; cases hheld

/-- In a state in which only a spurious wake-up is possible all threads have finished. -/
theorem finished_of_stuck (hi : Inv n σ) (hsleep : v = .busyWaiting → NobodySleeps σ)
    (hattended : v = .condition → Attended σ) (hc : 1 ≤ c) (hn : n < INT_MAX)
    (hstuck : ∀ e : Event c, e.spurious = false → σ.step v n e = none) : σ.Finished := by
  have hnot : ¬ Enabled v n σ := by
    rintro ⟨e, σ', hspurious, hs⟩
    rw [hstuck e hspurious] at hs
    cases hs
  have hmutex : σ.mutex = none := by
    cases hmutex : σ.mutex with
    | none => rfl
    | some u => exact absurd (enabled_of_holder hi hmutex) hnot
  have hok := hi.main
  have hjoined := hi.joined
  have hsent := hi.sent
  cases hmain : σ.main with
  | creating i =>
    refine absurd (enabled_of_isSome .create rfl ?_) hnot
    simp only [System.step, System.create, hmain]
    split <;> rfl
  | initializing =>
    exact absurd (enabled_of_isSome .init rfl (by simp [System.step, System.initQueue, hmain])) hnot
  | locking task =>
    exact absurd (enabled_of_isSome .mainLock rfl (by simp [System.step, System.mainLock, hmain, hmutex])) hnot
  | pushing | signalling | unlocking =>
    have hheld := (hi.holder .main).mpr (congrArg MainPc.holds hmain)
    rw [hmutex] at hheld
    cases hheld
  | advancing task =>
    refine absurd (enabled_of_isSome .advance rfl ?_) hnot
    rw [hmain] at hok
    cases task with
    | number i =>
      have hj : intAdd? i 1 = some (i + 1) := by
        obtain ⟨h1, hin⟩ := hok
        exact intAdd?_eq_some rfl (by unfold INT_MIN; omega) (by omega)
      simp [System.step, System.advance, hmain, hj]
    | sentinel i => simp [System.step, System.advance, hmain]
  | joining i finalSum =>
    rw [hmain] at hsent
    have hborn : ∀ t, σ.pc t ≠ .unborn := hi.born hmain (by simp)
    by_cases hlt : i < c
    · by_cases hpc : σ.pc ⟨i, hlt⟩ = .finished
      · refine absurd (enabled_of_isSome .join rfl ?_) hnot
        simp [System.step, System.join, hmain, hlt, hpc]
      · cases v with
        | busyWaiting =>
          exact absurd (enabled_of_consumer hi hmutex (hborn _) (hsleep rfl _) hpc) hnot
        | condition =>
          obtain ⟨e, σ', hspurious, -, hs⟩ := canGoOn hi (hattended rfl) hsent hc hpc
          exact absurd ⟨e, σ', hspurious, hs⟩ hnot
    · refine absurd (enabled_of_isSome .join rfl ?_) hnot
      simp [System.step, System.join, hmain, hlt]
  | finished finalSum =>
    rw [hmain] at hjoined
    exact ⟨⟨finalSum, hmain⟩, hjoined.2⟩

end GoesOn

/-! ### Runs -/

/-- What a run of `events` has come to. -/
structure Finishes (v : Variant) (n : Int) (sums : Fin c → Int) (events : List (Event c)) (σ : System c) :
    Prop where
  steps : (events.length : Int) ≤ 12 * n + 17 * c + 3 +
    3 * tally (System.step v n) (System.idle v) (System.init sums) events
  completes : (∀ e : Event c, e.spurious = false → σ.step v n e = none) →
    σ.Finished ∧ σ.queue.queue = [] ∧ σ.main = .finished (if n % 2 = 0 then -(n / 2) else (n + 1) / 2)

theorem weight_init (n : Int) (sums : Fin c → Int) :
    (System.init sums).weight n = 12 * n.toNat + 17 * c + 3 := by
  have hnone : ∑ t : Fin c, ((System.init sums).pc t).weight = 0 := Finset.sum_eq_zero fun _ _ => rfl
  rw [System.weight, hnone]
  simp only [System.init, MainPc.weight, myqueueInit, Channel.empty, List.length_nil]
  omega

theorem finishes (v : Variant) (n : Int) (sums : Fin c → Int) (events : List (Event c)) (σ : System c)
    (hc : 1 ≤ c) (h1 : 1 ≤ n) (hn : n < INT_MAX)
    (hr : run (System.step v n) (System.init sums) events = some σ) : Finishes v n sums events σ := by
  have hi : Inv n σ := Inv.of_run h1 hr
  refine ⟨?_, fun hstuck => ?_⟩
  · have hle : events.length + σ.weight n ≤ (System.init sums).weight n +
        3 * tally (System.step v n) (System.idle v) (System.init sums) events :=
      length_le_tally (fun _ _ _ h hs => h.step h1 hs) (fun _ _ _ h hs => weight_step h hs)
        (Inv.init sums) hr
    rw [weight_init] at hle
    omega
  · have hfin : σ.Finished := by
      refine finished_of_stuck hi ?_ ?_ hc hn hstuck
      · rintro rfl
        exact run_inv (fun _ _ _ h hs => h.step hs) (fun t ht => by cases ht) hr
      · rintro rfl
        exact Attended.of_run hr
    have hconserved := hi.conserved hc h1 hn hfin
    exact ⟨hfin, hconserved.queue, hconserved.finalSum⟩

/-- One consumer and the number `1`; the consumer looks at the empty queue once. -/
def onePoll (t : Fin 1) : List (Event 1) :=
  [.create, .start t, .lock t, .test t, .create, .init, .mainLock, .push, .mainUnlock, .advance, .mainLock,
    .push, .mainUnlock, .advance, .lock t, .test t, .pop t, .unlock t, .decide t, .lock t, .test t, .pop t,
    .unlock t, .decide t, .join, .join]

theorem finishes_onePoll : ∃ σ : System 1,
    run (System.step .busyWaiting 1) (System.init fun _ => 7) (onePoll 0) = some σ ∧ σ.main = .finished 1 ∧
    tally (System.step .busyWaiting 1) (System.idle .busyWaiting) (System.init fun _ => 7) (onePoll 0) = 1 ∧
    Finishes .busyWaiting 1 (fun _ => 7) (onePoll 0) σ := by
  have hrun : (run (System.step .busyWaiting 1) (System.init fun _ => 7) (onePoll 0)).map
      (fun σ => σ.main) = some (.finished 1) := by decide +kernel
  obtain ⟨σ, hr, hmain⟩ := Option.map_eq_some_iff.mp hrun
  exact ⟨σ, hr, hmain, by decide +kernel,
    finishes .busyWaiting 1 _ (onePoll 0) σ (by decide) (by decide) (by decide) hr⟩

end OsExercises.ProducerConsumer
