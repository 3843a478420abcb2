import OsExercises.SpinMutex.HandOff

/-!
# The queue is handed over intact

The mutex keeps `populate` and `sum` apart: while one is in its critical section, what the invariant
says about the other's is void. The values popped and the values in the queue are then together what
was pushed, and `sum` has added up the 1s when it sees the 0.
-/

namespace OsExercises.SpinMutex

/-! ### Where the threads are in the mutex -/

namespace Phase

def Fits : Phase → Place → Prop
  | .locking, p => p ≠ .clearing
  | .critical, p => p = .inside
  | .unlocking, p => p = .inside ∨ p = .clearing ∨ p = .outside
  | .finished, p => p = .outside

variable {φ : Phase} {p : Place}

theorem Fits.eq_locking (h : φ.Fits p) (hp : p = .testing ∨ p = .yielding) : φ = .locking := by
  rcases hp with rfl | rfl
  all_goals
    cases φ with
    | locking => rfl
    | critical => cases h
    | unlocking => rcases h with h | h | h <;> cases h
    | finished => cases h

theorem Fits.eq_unlocking (h : φ.Fits .clearing) : φ = .unlocking := by
  cases φ with
  | locking => exact absurd rfl h
  | critical => cases h
  | unlocking => rfl
  | finished => cases h

end Phase

namespace HandOff

variable {n : Nat} {σ σ' : HandOff} {l : List Nat}

theorem fits_step {e : Event Thread} {μ : System Thread}
    (h : ∀ t, (σ.phase t).Fits (σ.mutex.place t)) (hcalls : σ.calls e = true)
    (hstep : σ.mutex.step e = some μ) : ∀ t, (σ.phase t).Fits (μ.place t) := by
  have go : ∀ (u : Thread) (p : Place), (σ.phase u).Fits p →
      ∀ t, (σ.phase t).Fits (σ.mutex.go u p t) := fun u p hp =>
    (Function.forall_update_iff _ fun t p => (σ.phase t).Fits p).mpr ⟨hp, fun t _ => h t⟩
  have locking : ∀ (u : Thread) (p : Place), σ.phase u = .locking → p ≠ .clearing →
      ∀ t, (σ.phase t).Fits (σ.mutex.go u p t) := fun u p hu hp => go u p (by rw [hu]; exact hp)
  have unlocking : ∀ (u : Thread) (p : Place), σ.phase u = .unlocking → p = .clearing ∨ p = .outside →
      ∀ t, (σ.phase t).Fits (σ.mutex.go u p t) := fun u p hu hp =>
    go u p (by rw [hu]; exact Or.inr hp)
  cases System.step_cases hstep with
  | lock => exact locking _ _ (of_decide_eq_true hcalls) Place.noConfusion
  | @taken u hu => exact locking u _ ((h u).eq_locking (Or.inl hu)) Place.noConfusion
  | @missed u hu => exact locking u _ ((h u).eq_locking (Or.inl hu)) Place.noConfusion
  | @schedYield u hu => exact locking u _ ((h u).eq_locking (Or.inr hu)) Place.noConfusion
  | unlock => exact unlocking _ _ (of_decide_eq_true hcalls) (Or.inl rfl)
  | @clear u hu =>
    refine unlocking u _ (Phase.Fits.eq_unlocking ?_) (Or.inr rfl)
    rw [← hu]
    exact h u

end HandOff

/-! ### The two threads -/

/-- `entry` is about to be linked in. -/
structure Fresh (q : MyQueue) (l : List Nat) (entry : Nat) (value : Int) : Prop where
  null : entry ≠ NULL
  head : entry ≠ head
  notMem : entry ∉ l
  allocated : q.allocated entry = true
  value : q.value entry = value

theorem Fresh.terminate {q : MyQueue} {l : List Nat} {entry : Nat} {value : Int}
    (h : Fresh q l entry value) : Fresh (q.terminate entry) l entry value :=
  ⟨h.null, h.head, h.notMem, h.allocated, h.value⟩

namespace PopulatePc

/-- How many entries have been linked in. -/
def done (n : Nat) : PopulatePc → Nat
  | .locking i | .terminating i _ | .linking i _ => i
  | .extending i _ | .unlocking i => i + 1
  | .finished => n + 1

def InRange (n : Nat) : PopulatePc → Prop
  | .locking i | .terminating i _ | .linking i _ | .extending i _ | .unlocking i => i ≤ n
  | .finished => True

theorem InRange.done_le {n : Nat} {pc : PopulatePc} (h : pc.InRange n) : pc.done n ≤ n + 1 := by
  cases pc with
  | locking | terminating | linking => exact Nat.le_succ_of_le h
  | extending | unlocking => exact Nat.succ_le_succ h
  | finished => exact Nat.le_refl _

/-- `stqh_last` is behind. -/
def behind : PopulatePc → Bool
  | .extending _ _ => true
  | _ => false

def Owns (n : Nat) (q : MyQueue) (l : List Nat) : PopulatePc → Prop
  | .terminating i entry => Fresh q l entry (entryValue n i)
  | .linking i entry => Fresh q l entry (entryValue n i) ∧ q.next entry = NULL
  | .extending _ entry => l.getLastD head = entry
  | _ => True

variable {n : Nat} {q : MyQueue} {l : List Nat} {pc : PopulatePc}

theorem owns_of_ne (h : pc.phase ≠ .critical) : pc.Owns n q l := by
  cases pc with
  | locking | unlocking | finished => exact trivial
  | terminating | linking | extending => exact absurd rfl h

theorem behind_of_ne (h : pc.phase ≠ .critical) : pc.behind = false := by
  cases pc with
  | locking | unlocking | finished => rfl
  | terminating | linking | extending => exact absurd rfl h

end PopulatePc

namespace SumPc

/-- `stqh_last` points into a removed entry. -/
def relinks : SumPc → Bool
  | .relinking _ _ => true
  | _ => false

def Owns (q : MyQueue) (l : List Nat) : SumPc → Prop
  | .popping => l ≠ []
  | .unlinking entry buf => (∃ rest, l = entry :: rest) ∧ q.value entry = buf
  | .relinking _ _ => l = []
  | .freeing entry _ => entry ∉ l
  | _ => True

/-- What was popped and is not in the sum. -/
def held : SumPc → List Int
  | .relinking _ buf | .freeing _ buf | .unlocking buf => [buf]
  | .finished => [0]
  | _ => []

variable {q : MyQueue} {l : List Nat} {pc : SumPc}

theorem owns_of_ne (h : pc.phase ≠ .critical) : pc.Owns q l := by
  cases pc with
  | locking | continuing | unlocking | finished => exact trivial
  | popping | unlinking | relinking | freeing => exact absurd rfl h

theorem relinks_of_ne (h : pc.phase ≠ .critical) : pc.relinks = false := by
  cases pc with
  | locking | continuing | unlocking | finished => rfl
  | popping | unlinking | relinking | freeing => exact absurd rfl h

end SumPc

/-! ### The invariant -/

namespace HandOff

structure Inv (n : Nat) (σ : HandOff) (l : List Nat) : Prop where
  mutex : SpinMutex.Inv σ.mutex
  fits : ∀ t, (σ.phase t).Fits (σ.mutex.place t)
  linked : Linked σ.queue l
  tail : σ.populate.behind = false → σ.sum.relinks = false → Tail σ.queue l
  inRange : σ.populate.InRange n
  populate : σ.populate.Owns n σ.queue l
  sum : σ.sum.Owns σ.queue l
  pushed : σ.pushed = (List.range (σ.populate.done n)).map (entryValue n)
  log : σ.popped ++ l.map σ.queue.value = σ.pushed
  total : ∃ k : Nat, σ.total = k ∧ σ.popped = List.replicate k 1 ++ σ.sum.held

variable {n : Nat} {σ σ' : HandOff} {l : List Nat}

theorem Inv.start (next : Nat → Nat) (value : Nat → Int) : Inv n (start next value) [] where
  mutex := SpinMutex.Inv.start
  fits t := by cases t <;> exact Place.noConfusion
  linked := Linked.init next value
  tail _ _ := rfl
  inRange := Nat.zero_le n
  populate := trivial
  sum := trivial
  pushed := rfl
  log := rfl
  total := ⟨0, rfl, rfl⟩

namespace Inv

theorem mutexStep (h : Inv n σ l) (hs : MutexStep σ σ') : Inv n σ' l := by
  obtain ⟨hcalls, hstep⟩ := hs
  have hfits := fits_step h.fits hcalls hstep
  exact { h with mutex := h.mutex.step hstep, fits := hfits }

/-- A thread that has the mutex keeps the other one out of its critical section. -/
theorem ne_critical (h : Inv n σ l) {t u : Thread} (hne : t ≠ u) (ht : σ.mutex.place t = .inside) :
    σ.phase u ≠ .critical := by
  intro hu
  have hfits := h.fits u
  rw [hu] at hfits
  have hinside : σ.mutex.place u = .inside := hfits
  exact hne (h.mutex.unique (by rw [ht]; rfl) (by rw [hinside]; rfl))

theorem sum_ne (h : Inv n σ l) (hplace : σ.mutex.place .populate = .inside) :
    σ.sum.phase ≠ .critical := h.ne_critical (u := .sum) (by decide) hplace

theorem populate_ne (h : Inv n σ l) (hplace : σ.mutex.place .sum = .inside) :
    σ.populate.phase ≠ .critical := h.ne_critical (u := .populate) (by decide) hplace

theorem populate_inside (h : Inv n σ l) (hpc : σ.populate.phase = .critical) :
    σ.mutex.place .populate = .inside := by
  have hfits := h.fits .populate
  rw [phase, hpc] at hfits
  exact hfits

theorem sum_inside (h : Inv n σ l) (hpc : σ.sum.phase = .critical) :
    σ.mutex.place .sum = .inside := by
  have hfits := h.fits .sum
  rw [phase, hpc] at hfits
  exact hfits

theorem populateStep (h : Inv n σ l) (hs : PopulateStep n σ σ') : ∃ l, Inv n σ' l := by
  have hle := h.inRange
  have hpushed := h.pushed
  have howns := h.populate
  cases hs with
  | @allocate i entry hpc hplace hnull hhead hfresh =>
    have hsum := h.sum_ne hplace
    have hnotMem : entry ∉ l := fun hmem => by
      have hallocated := h.linked.allocated entry hmem
      rw [hfresh] at hallocated
      cases hallocated
    rw [hpc] at hle hpushed
    refine ⟨l, h.mutex, Thread.rec hplace (h.fits .sum), h.linked.allocate, ?_, hle, ?_,
      SumPc.owns_of_ne hsum, hpushed, ?_, h.total⟩
    · exact fun _ => h.tail (by rw [hpc]; rfl)
    · exact ⟨hnull, hhead, hnotMem, Function.update_self .., Function.update_self ..⟩
    · show σ.popped ++ l.map (σ.queue.allocate entry _).value = σ.pushed
      rw [Linked.map_allocate hnotMem, h.log]
  | @terminate i entry hpc =>
    have hinside := h.populate_inside (by rw [hpc]; rfl)
    rw [hpc] at hle hpushed howns
    refine ⟨l, h.mutex, Thread.rec hinside (h.fits .sum),
      h.linked.terminate howns.head howns.notMem, ?_, hle,
      ⟨Fresh.terminate howns, Function.update_self ..⟩, SumPc.owns_of_ne (h.sum_ne hinside), hpushed, h.log, h.total⟩
    exact fun _ => h.tail (by rw [hpc]; rfl)
  | @link i entry hpc =>
    have hinside := h.populate_inside (by rw [hpc]; rfl)
    have hsum := h.sum_ne hinside
    have htail := h.tail (by rw [hpc]; rfl) (SumPc.relinks_of_ne hsum)
    rw [hpc] at hle hpushed howns
    obtain ⟨hfresh, hnext⟩ := howns
    have hlinked := h.linked.link htail hfresh.null hfresh.head hfresh.notMem hnext hfresh.allocated
    refine ⟨l ++ [entry], h.mutex, Thread.rec hinside (h.fits .sum), hlinked, ?_, hle,
      List.getLastD_concat .., SumPc.owns_of_ne hsum, ?_, ?_, h.total⟩
    · intro hbehind
      cases hbehind
    · show σ.pushed ++ [_] = (List.range (i + 1)).map _
      rw [hpushed, List.range_succ, List.map_append]
      rfl
    · show σ.popped ++ (l ++ [entry]).map σ.queue.value = σ.pushed ++ [_]
      rw [List.map_append, ← List.append_assoc, h.log, List.map_singleton, hfresh.value]
  | @extend i entry hpc =>
    have hinside := h.populate_inside (by rw [hpc]; rfl)
    rw [hpc] at hle hpushed howns
    exact ⟨l, h.mutex, Thread.rec (Or.inl hinside) (h.fits .sum), h.linked.extend,
      fun _ _ => howns.symm, hle, trivial, SumPc.owns_of_ne (h.sum_ne hinside), hpushed, h.log, h.total⟩
  | @again i hpc hplace hi =>
    rw [hpc] at hpushed
    refine ⟨l, h.mutex, ?_, h.linked, fun _ => h.tail (by rw [hpc]; rfl), hi, trivial, h.sum, hpushed,
      h.log, h.total⟩
    refine Thread.rec ?_ (h.fits .sum)
    show σ.mutex.place .populate ≠ _
    rw [hplace]
    exact Place.noConfusion
  | @exit i hpc hplace hi =>
    rw [hpc] at hle hpushed
    refine ⟨l, h.mutex, Thread.rec hplace (h.fits .sum), h.linked, fun _ => h.tail (by rw [hpc]; rfl),
      trivial, trivial, h.sum, ?_, h.log, h.total⟩
    obtain rfl : i = n := Nat.le_antisymm hle hi
    exact hpushed

theorem unlinked {entry : Nat} {rest : List Nat} (h : Inv n σ (entry :: rest)) :
    (σ.popped ++ [σ.queue.value entry]) ++ rest.map σ.queue.value = σ.pushed := by
  rw [← h.log, List.append_assoc]
  rfl

/-- Only 1s and 0s are pushed. -/
theorem eq_one_of_popped {buf : Int} (h : Inv n σ l) (hmem : buf ∈ σ.popped) (hne : buf ≠ 0) :
    buf = 1 := by
  have hpushed : buf ∈ σ.pushed := by
    rw [← h.log]
    exact List.mem_append_left _ hmem
  rw [h.pushed] at hpushed
  obtain ⟨i, -, hi⟩ := List.mem_map.mp hpushed
  unfold entryValue at hi
  split_ifs at hi
  · exact hi.symm
  · exact absurd hi.symm hne

/-- `sum` goes on without a write to the queue. -/
theorem sumMoved {pc : SumPc} (h : Inv n σ l) (hfits : pc.phase.Fits (σ.mutex.place .sum))
    (hrelinks : σ.sum.relinks = false) (howns : pc.Owns σ.queue l) (hheld : pc.held = σ.sum.held) :
    Inv n { σ with sum := pc } l := by
  obtain ⟨k, htotal, hpopped⟩ := h.total
  rw [← hheld] at hpopped
  exact ⟨h.mutex, Thread.rec (h.fits .populate) hfits, h.linked, fun hp _ => h.tail hp hrelinks,
    h.inRange, h.populate, howns, h.pushed, h.log, k, htotal, hpopped⟩

theorem sumStep (h : Inv n σ l) (hs : SumStep σ σ') : ∃ l, Inv n σ' l := by
  have howns := h.sum
  obtain ⟨k, htotal, hpopped⟩ := h.total
  cases hs with
  | empty hpc hplace =>
    exact ⟨l, h.sumMoved (Or.inl hplace) (by rw [hpc]; rfl) trivial (by rw [hpc]; rfl)⟩
  | nonempty hpc hplace hqueue =>
    exact ⟨l, h.sumMoved hplace (by rw [hpc]; rfl) (fun hl => hqueue (h.linked.isEmpty_iff.mpr hl))
      (by rw [hpc]; rfl)⟩
  | «continue» hpc hplace =>
    refine ⟨l, h.sumMoved ?_ (by rw [hpc]; rfl) trivial (by rw [hpc]; rfl)⟩
    rw [hplace]
    exact Place.noConfusion
  | first hpc hqueue =>
    have hinside := h.sum_inside (by rw [hpc]; rfl)
    rw [hpc] at howns
    refine ⟨l, h.sumMoved hinside (by rw [hpc]; rfl) ⟨?_, rfl⟩ (by rw [hpc]; rfl)⟩
    obtain ⟨entry, rest, rfl⟩ := List.exists_cons_of_ne_nil howns
    rw [h.linked.next_head]
    exact ⟨rest, rfl⟩
  | @unlinkLast entry buf hpc hqueue =>
    have hinside := h.sum_inside (by rw [hpc]; rfl)
    rw [hpc] at hpopped howns
    obtain ⟨⟨rest, rfl⟩, rfl⟩ := howns
    have hlinked := h.linked.unlink
    refine ⟨rest, h.mutex, Thread.rec (h.fits .populate) hinside, hlinked, ?_, h.inRange,
      PopulatePc.owns_of_ne (h.populate_ne hinside), ?_, h.pushed, h.unlinked, k, htotal, ?_⟩
    · intro _ hrelinks
      cases hrelinks
    · exact hlinked.isEmpty_iff.mp (decide_eq_true hqueue)
    · rw [hpopped, List.append_assoc]
      rfl
  | @unlink entry buf hpc hqueue =>
    have hinside := h.sum_inside (by rw [hpc]; rfl)
    have hpopulate := h.populate_ne hinside
    have htail := h.tail (PopulatePc.behind_of_ne hpopulate) (by rw [hpc]; rfl)
    rw [hpc] at hpopped howns
    obtain ⟨⟨rest, rfl⟩, rfl⟩ := howns
    have hlinked := h.linked.unlink
    have hne : rest ≠ [] := fun hrest => hqueue (of_decide_eq_true (hlinked.isEmpty_iff.mpr hrest))
    refine ⟨rest, h.mutex, Thread.rec (h.fits .populate) hinside, hlinked, fun _ _ => htail.unlink hne,
      h.inRange, PopulatePc.owns_of_ne hpopulate, ?_, h.pushed, h.unlinked, k, htotal, ?_⟩
    · exact (List.nodup_cons.mp h.linked.nodup.of_cons).1
    · rw [hpopped, List.append_assoc]
      rfl
  | @relink entry buf hpc =>
    have hinside := h.sum_inside (by rw [hpc]; rfl)
    rw [hpc] at hpopped howns
    obtain rfl : l = [] := howns
    exact ⟨[], h.mutex, Thread.rec (h.fits .populate) hinside, h.linked.relink, fun _ _ => rfl,
      h.inRange, PopulatePc.owns_of_ne (h.populate_ne hinside), List.not_mem_nil, h.pushed, h.log,
      k, htotal, hpopped⟩
  | @free entry buf hpc =>
    have hinside := h.sum_inside (by rw [hpc]; rfl)
    rw [hpc] at hpopped howns
    exact ⟨l, h.mutex, Thread.rec (h.fits .populate) (Or.inl hinside), h.linked.free howns,
      fun hp _ => h.tail hp (by rw [hpc]; rfl), h.inRange,
      PopulatePc.owns_of_ne (h.populate_ne hinside), trivial, h.pushed, h.log, k, htotal, hpopped⟩
  | stop hpc hplace => exact ⟨l, h.sumMoved hplace (by rw [hpc]; rfl) trivial (by rw [hpc]; rfl)⟩
  | @add buf total hpc hplace hbuf hadd =>
    rw [hpc] at hpopped
    have hmem : buf ∈ σ.popped := by
      rw [hpopped]
      exact List.mem_append_right _ (List.mem_singleton_self _)
    have hbuf := h.eq_one_of_popped hmem hbuf
    subst hbuf
    refine ⟨l, h.mutex, Thread.rec (h.fits .populate) ?_, h.linked,
      fun hp _ => h.tail hp (by rw [hpc]; rfl), h.inRange, h.populate, trivial, h.pushed, h.log,
      k + 1, ?_, ?_⟩
    · show σ.mutex.place .sum ≠ _
      rw [hplace]
      exact Place.noConfusion
    · rw [(intAdd?_cases hadd).1, htotal]
      rfl
    · rw [hpopped, List.replicate_succ']
      exact (List.append_nil _).symm

theorem step (h : Inv n σ l) {e : HandOffEvent} (hs : σ.step n e = some σ') : ∃ l, Inv n σ' l := by
  rcases step_cases hs with hs | hs | hs
  · exact ⟨l, h.mutexStep hs⟩
  · exact h.populateStep hs
  · exact h.sumStep hs

/-! ### The result -/

theorem total_of_finished (h : Inv n σ l) (hsum : σ.sum = .finished) :
    σ.total = σ.pushed.count 1 := by
  obtain ⟨k, htotal, hpopped⟩ := h.total
  rw [hsum] at hpopped
  have hlog := h.log
  rw [hpopped, h.pushed] at hlog
  -- The 0 is the value of round `n`, and that is the last one.
  have hzero : ((List.range (σ.populate.done n)).map (entryValue n))[k]? = some 0 := by
    rw [← hlog, List.append_assoc, List.getElem?_append_right (by simp)]
    simp [SumPc.held]
  rw [List.getElem?_map, Option.map_eq_some_iff] at hzero
  obtain ⟨i, hi, hvalue⟩ := hzero
  obtain ⟨hk, rfl⟩ := List.getElem?_eq_some_iff.mp hi
  rw [List.length_range] at hk
  rw [List.getElem_range] at hvalue
  have hn : n ≤ k := by
    by_contra hlt
    rw [entryValue, if_pos (Nat.lt_of_not_le hlt)] at hvalue
    cases hvalue
  have hdone := h.inRange.done_le
  have hlength := congrArg List.length hlog
  simp only [List.length_append, List.length_replicate, List.length_map, List.length_range,
    SumPc.held, List.length_singleton] at hlength
  obtain rfl : l = [] := List.length_eq_zero_iff.mp (by omega)
  rw [htotal, h.pushed, ← hlog]
  simp [SumPc.held]

end Inv

theorem inv_of_run {next : Nat → Nat} {value : Nat → Int} {events : List HandOffEvent}
    (h : Transition.run (step n) (start next value) events = some σ) : ∃ l, Inv n σ l :=
  Transition.run_inv (I := fun σ => ∃ l, Inv n σ l) (fun _ _ _ ⟨_, hl⟩ hs => hl.step hs)
    ⟨[], Inv.start next value⟩ h

end HandOff

/-- `locked` is set exactly while one thread is between lock and unlock. -/
structure Excludes {T : Type*} (σ : System T) : Prop where
  unique : ∀ t u, (σ.place t).holds = true → (σ.place u).holds = true → t = u
  locked : σ.mutex.locked = true ↔ ∃ t, (σ.place t).holds = true

/-- The queue holds what was pushed and not popped, and the result is the number of 1s. -/
structure Intact (σ : HandOff) : Prop where
  queue : ∃ l, Linked σ.queue l ∧ σ.popped ++ l.map σ.queue.value = σ.pushed
  result : σ.sum = .finished → σ.total = σ.pushed.count 1

theorem hand_off_intact :
    (∀ (T : Type) [DecidableEq T] (events : List (Event T)) (σ : System T),
      Transition.run System.step (System.start T) events = some σ → Excludes σ) ∧
    ∀ (n : Nat) (next : Nat → Nat) (value : Nat → Int) (events : List HandOffEvent) (σ : HandOff),
      Transition.run (HandOff.step n) (HandOff.start next value) events = some σ →
        Excludes σ.mutex ∧ Intact σ := by
  constructor
  · intro T _ events σ hrun
    have hinv := Transition.run_inv (I := Inv) (fun _ _ _ h hs => h.step hs) Inv.start hrun
    exact ⟨fun _ _ => hinv.unique, hinv.locked_iff⟩
  · intro n next value events σ hrun
    obtain ⟨l, hinv⟩ := HandOff.inv_of_run hrun
    exact ⟨⟨fun _ _ => hinv.mutex.unique, hinv.mutex.locked_iff⟩, ⟨l, hinv.linked, hinv.log⟩,
      hinv.total_of_finished⟩

/-- A round of one thread: lock, `k` steps, unlock and the step after it. -/
def oneRound (t : Thread) (e : HandOffEvent) (k : Nat) : List HandOffEvent :=
  [.mutex (.lock t), .mutex (.testAndSet t)] ++ List.replicate k e ++
    [.mutex (.unlock t), .mutex (.clear t), e]

theorem hand_off_intact_one_round : ∃ σ,
    Transition.run (HandOff.step 1) (HandOff.start (fun _ => 0) fun _ => 0)
      (oneRound .populate (.populate 5) 4 ++ oneRound .populate (.populate 6) 4 ++
        oneRound .sum .sum 4 ++ oneRound .sum .sum 5) = some σ ∧
      σ.sum = .finished ∧ σ.total = 1 ∧ Intact σ := by
  have hend : (Transition.run (HandOff.step 1) (HandOff.start (fun _ => 0) fun _ => 0)
      (oneRound .populate (.populate 5) 4 ++ oneRound .populate (.populate 6) 4 ++
        oneRound .sum .sum 4 ++ oneRound .sum .sum 5)).map (fun σ => (σ.sum, σ.total)) =
      some (.finished, 1) := rfl
  obtain ⟨σ, hrun, heq⟩ := Option.map_eq_some_iff.mp hend
  exact ⟨σ, hrun, congrArg Prod.fst heq, congrArg Prod.snd heq, (hand_off_intact.2 1 _ _ _ σ hrun).2⟩

end OsExercises.SpinMutex
