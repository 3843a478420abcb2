import OsExercises.Beehive.Termination

/-!
# Every run of the beehive ends

A bee either flies out with a position or comes back from one, and there are only so many positions.
Unless everything is harvested, one of the bees does one of the two in every cycle: the queue is not empty,
so that the first bee to look for work finds some, or there is a bee to come back (`Cycling`). That
`all_harvested` is right when the next cycle begins is kept by `Closing`. So the number of cycles is
bounded, and with it the number of steps, whatever the bees meet with and in which order they move.
-/

namespace OsExercises.Beehive
open CyclicBarrier Grid Transition

/-! ### The time of a bee -/

/-- The steps that a bee has taken since it evaluated the loop condition, at most. -/
def Pc.rank : Pc → Nat
  | .unlockingLoop _ => 0
  | .lockingQueue | .lockingField | .finished => 1
  | .popping | .checking => 2
  | .unlockingQueue | .harvesting => 3
  | .looking i => 4 + 6 * min i 4
  | .unlockingFound i => 5 + 6 * i
  | .lockingPush i => 6 + 6 * i
  | .pushing i => 7 + 6 * i
  | .unlockingPush i => 8 + 6 * i
  | .relocking i => 9 + 6 * i
  | .unlockingField => 29
  | .sleeping => 30
  | .inBear => 31
  | .deciding _ => 32
  | .lockingAll => 33
  | .settingAll => 34
  | .unlockingAll => 35
  | .fighting => 36
  | .lockingDestroy => 37
  | .destroying => 38
  | .unlockingDestroy => 39
  | .enteringCycle => 40
  | .inCycle => 41
  | .lockingLoop => 42
  | .testing => 43

theorem Pc.rank_lt (p : Pc) : p.rank < 44 := by
  cases p <;> simp only [rank] <;> omega

def Bee.clock (b : Bee) : Nat := 44 * b.verdicts.length + b.pc.rank

section

variable {n : Nat} {σ σ' : System n} {t x : Fin n} {r k : Nat} {b : Bee}

def System.time (σ : System n) : Nat := ∑ t, (σ.bees t).clock

theorem lockField?_rank {p q : Pc} (h : p.lockField? = some q) : p.rank < q.rank := by
  cases p <;> cases h
  case relocking i =>
    have hi := i.isLt
    simp only [Pc.rank]
    omega
  all_goals decide

theorem unlockField?_rank {p q : Pc} (h : p.unlockField? = some q) : p.rank < q.rank := by
  cases p
  case unlockingLoop verdict =>
    cases verdict <;> cases h
    decide
  case unlockingFound i =>
    cases h
    simp only [Pc.rank]
    omega
  all_goals cases h <;> decide

theorem lockQueue?_rank {p q : Pc} (h : p.lockQueue? = some q) : p.rank < q.rank := by
  cases p <;> cases h
  case lockingPush i =>
    simp only [Pc.rank]
    omega
  all_goals decide

theorem unlockQueue?_rank {p q : Pc} (h : p.unlockQueue? = some q) : p.rank < q.rank := by
  cases p <;> cases h
  case unlockingPush i =>
    simp only [Pc.rank]
    omega
  all_goals decide

theorem time_lt_of_clock (hbees : σ'.bees = Function.update σ.bees t b)
    (hlt : (σ.bees t).clock < b.clock) : σ.time < σ'.time := by
  have hclock : (fun u => (σ'.bees u).clock) = Function.update (fun u => (σ.bees u).clock) t b.clock := by
    rw [hbees]
    funext u
    exact Function.apply_update (fun _ => Bee.clock) σ.bees t b u
  have hsum : ∑ u, (σ'.bees u).clock + (σ.bees t).clock = ∑ u, (σ.bees u).clock + b.clock := by
    rw [hclock]
    exact sum_update (fun u => (σ.bees u).clock) t b.clock
  unfold System.time
  omega

theorem time_lt_of_rank (hbees : σ'.bees = Function.update σ.bees t b)
    (hverdicts : b.verdicts = (σ.bees t).verdicts) (hlt : (σ.pc t).rank < b.pc.rank) : σ.time < σ'.time := by
  refine time_lt_of_clock hbees ?_
  unfold Bee.clock
  rw [hverdicts]
  exact Nat.add_lt_add_left hlt _

theorem time_lt_of_pc {p : Pc} (hpc : σ.pc t = p) (hbees : σ'.bees = Function.update σ.bees t b)
    (hverdicts : b.verdicts = (σ.bees t).verdicts) (hlt : p.rank < b.pc.rank) : σ.time < σ'.time :=
  time_lt_of_rank hbees hverdicts (hpc ▸ hlt)

/-- A step of a bee takes time. -/
theorem time_step {e : Event n} (hs : σ.step e = some σ') :
    σ.time < σ'.time ∨ σ'.time = σ.time ∧ ((∃ t, e = .bear t) ∨ ∃ t, e = .newCycle t) := by
  cases System.step_cases hs with
  | lockField hpc => exact .inl (time_lt_of_rank rfl rfl (lockField?_rank hpc))
  | unlockField hpc => exact .inl (time_lt_of_rank rfl rfl (unlockField?_rank hpc))
  | lockQueue hpc => exact .inl (time_lt_of_rank rfl rfl (lockQueue?_rank hpc))
  | unlockQueue hpc => exact .inl (time_lt_of_rank rfl rfl (unlockQueue?_rank hpc))
  | @test t hpc =>
    refine .inl (time_lt_of_clock rfl ?_)
    have hrank := (σ.bees t).pc.rank_lt
    simp only [Bee.clock, List.length_append, List.length_singleton]
    omega
  | lookFresh i hpc =>
    refine .inl (time_lt_of_pc hpc rfl rfl ?_)
    simp only [Pc.rank]
    omega
  | lookGone i hpc =>
    refine .inl (time_lt_of_pc hpc rfl rfl ?_)
    have hi := i.isLt
    simp only [Pc.rank]
    omega
  | lookEnd hpc =>
    refine .inl (time_lt_of_pc hpc rfl rfl ?_)
    simp only [Pc.rank]
    omega
  | push hpc =>
    refine .inl (time_lt_of_pc hpc rfl rfl ?_)
    simp only [Pc.rank]
    omega
  | enterWorking hpc | enterCollecting hpc | pop hpc | noFood hpc | checkFresh hpc | checkGone hpc
  | harvest hpc | leave hpc | enterBear hpc | exitBear hpc | decideSerial hpc | decide hpc | setAll hpc
  | lose hpc | survive hpc | destroy hpc | enterCycle hpc | exitCycle hpc =>
    exact .inl (time_lt_of_pc hpc rfl rfl (by simp [Pc.rank]))
  | completeBear => exact .inr ⟨rfl, .inl ⟨_, rfl⟩⟩
  | completeCycle => exact .inr ⟨rfl, .inr ⟨_, rfl⟩⟩

/-! ### The work of a cycle -/

/-- The bee has its work of the cycle still to do. -/
def Pc.due : Pc → Bool
  | .inCycle | .lockingLoop | .testing | .unlockingLoop _ | .lockingQueue | .popping | .lockingField
  | .checking | .harvesting | .looking _ | .unlockingFound _ | .lockingPush _ | .pushing _
  | .unlockingPush _ | .relocking _ | .unlockingField => true
  | _ => false

def Bee.out (b : Bee) : Bool := decide (b.state = .collecting)

/-- In `k` cycles the bees have set out or come back at least once. -/
def Earned (k : Nat) (σ : System n) : Prop :=
  k + population Bee.out σ.bees ≤ 2 * σ.queue.received.length

theorem Earned.of_succ (h : Earned (k + 1) σ) : Earned k σ := by
  unfold Earned at *
  omega

theorem Earned.moved (h : Earned k σ) (hbees : σ'.bees = Function.update σ.bees t b)
    (hstate : b.state = (σ.bees t).state) (hreceived : σ'.queue.received = σ.queue.received) :
    Earned k σ' := by
  have hpopulation := population_update Bee.out σ.bees t b
  have hout : b.out = (σ.bees t).out := by rw [Bee.out, Bee.out, hstate]
  rw [← hbees, hout] at hpopulation
  unfold Earned at *
  rw [hreceived]
  omega

theorem Earned.pop {q : Pos} {queue : MyQueue n} (h : Earned k σ) (hq : σ.queue.receive t = some (q, queue))
    (hstate : (σ.bees t).state = .working) (hqueue : σ'.queue = queue)
    (hbees : σ'.bees = Function.update σ.bees t b) (hb : b.state = .collecting) : Earned (k + 1) σ' := by
  have hpopulation := population_update Bee.out σ.bees t b
  rw [← hbees, Bee.out, Bee.out, hstate, hb] at hpopulation
  unfold Earned at *
  rw [hqueue, (Channel.receive_cases hq).2.2, List.length_append, List.length_singleton]
  simp only [reduceCtorEq, decide_false, Bool.toNat_false, decide_true, Bool.toNat_true] at hpopulation
  omega

theorem Earned.leave (h : Earned k σ) (hstate : (σ.bees t).state = .collecting)
    (hreceived : σ'.queue.received = σ.queue.received) (hbees : σ'.bees = Function.update σ.bees t b)
    (hb : b.state = .working) : Earned (k + 1) σ' := by
  have hpopulation := population_update Bee.out σ.bees t b
  rw [← hbees, Bee.out, Bee.out, hstate, hb] at hpopulation
  unfold Earned at *
  rw [hreceived]
  simp only [reduceCtorEq, decide_false, Bool.toNat_false, decide_true, Bool.toNat_true] at hpopulation
  omega

/-- There is work for the bees in this cycle. -/
def HasWork (σ : System n) : Prop :=
  σ.queue.queue ≠ [] ∧ (∀ t, (σ.pc t).due = true) ∨
    ∃ t, (σ.pc t).due = true ∧ (σ.bees t).state = .collecting

/-- `r` cycles are over. -/
structure Cycling (r : Nat) (σ : System n) : Prop where
  working : Working r σ
  earned : Earned r σ
  goesOn : σ.condition = true → Earned (r + 1) σ ∨ HasWork σ

theorem lockField?_due {p q : Pc} (h : p.lockField? = some q) : q.due = p.due := by
  cases p <;> cases h <;> rfl

theorem lockQueue?_due {p q : Pc} (h : p.lockQueue? = some q) : q.due = p.due := by
  cases p <;> cases h <;> rfl

theorem unlockQueue?_due {p q : Pc} (h : p.unlockQueue? = some q) : q.due = p.due := by
  cases p <;> cases h <;> rfl

theorem unlockField?_due {p q : Pc} (h : p.unlockField? = some q) :
    q.due = p.due ∨ p = .unlockingLoop false := by
  cases p
  case unlockingLoop verdict =>
    cases verdict <;> cases h
    exact .inr rfl
  all_goals cases h <;> exact .inl rfl

theorem due_of_update (hbees : σ'.bees = Function.update σ.bees t b)
    (hdue : (σ.pc t).due = true → b.pc.due = true) (u : Fin n) (hu : (σ.pc u).due = true) :
    (σ'.pc u).due = true := by
  by_cases hut : u = t
  · subst hut
    rw [pc_update hbees, Function.update_self]
    exact hdue hu
  · rw [pc_update hbees, Function.update_of_ne hut]
    exact hu

/-- A step of `t` after which its work is still to be done if it was before. -/
theorem HasWork.moved (h : HasWork σ) (hbees : σ'.bees = Function.update σ.bees t b)
    (hstate : b.state = (σ.bees t).state) (hqueue : σ.queue.queue ≠ [] → σ'.queue.queue ≠ [])
    (hdue : (σ.pc t).due = true → b.pc.due = true) : HasWork σ' := by
  rcases h with ⟨hne, hall⟩ | ⟨u, hu, hout⟩
  · exact .inl ⟨hqueue hne, fun u => due_of_update hbees hdue u (hall u)⟩
  · refine .inr ⟨u, due_of_update hbees hdue u hu, ?_⟩
    rw [hbees]
    by_cases hut : u = t
    · subst hut
      rw [Function.update_self, hstate]
      exact hout
    · rw [Function.update_of_ne hut]
      exact hout

theorem Working.inBear_of_complete {bear : Fin n → Place} (h : Working r σ)
    (hcomplete : complete? σ.barrierBear x = some bear) (t : Fin n) :
    σ.pc t = .inBear ∧ σ.condition = true := by
  have hat := h.at_stage t
  rw [(complete?_cases hcomplete).1 t] at hat
  cases hpc : σ.pc t <;> rw [hpc] at hat
  case inBear => exact ⟨rfl, hat.2.2.1⟩
  all_goals first | exact hat.elim | exact nomatch hat.1

namespace Cycling

theorem of_earned (hworking : Working r σ) (hearned : Earned (r + 1) σ) : Cycling r σ :=
  ⟨hworking, hearned.of_succ, fun _ => .inl hearned⟩

theorem moved (h : Cycling r σ) (hworking : Working r σ') (hbees : σ'.bees = Function.update σ.bees t b)
    (hstate : b.state = (σ.bees t).state) (hreceived : σ'.queue.received = σ.queue.received)
    (hqueue : σ.queue.queue ≠ [] → σ'.queue.queue ≠ []) (hcondition : σ'.condition = σ.condition)
    (hdue : σ.condition = true → (σ.pc t).due = true → b.pc.due = true) : Cycling r σ' := by
  refine ⟨hworking, h.earned.moved hbees hstate hreceived, fun hc => ?_⟩
  rw [hcondition] at hc
  rcases h.goesOn hc with hearned | hwork
  · exact .inl (hearned.moved hbees hstate hreceived)
  · exact .inr (hwork.moved hbees hstate hqueue (hdue hc))

/-- The bees have all been at work when the first barrier is complete. -/
theorem earned_of_complete {bear : Fin n → Place} (h : Cycling r σ)
    (hcomplete : complete? σ.barrierBear x = some bear) : Earned (r + 1) σ := by
  have hat := h.working.inBear_of_complete hcomplete
  rcases h.goesOn (hat x).2 with hearned | ⟨-, hall⟩ | ⟨t, ht, -⟩
  · exact hearned
  · have hx := hall x
    rw [(hat x).1] at hx
    cases hx
  · rw [(hat t).1] at ht
    cases ht

end Cycling

/-! ### The flag for the next cycle -/

/-- The serial thread is behind the assignment to `all_harvested`. -/
def Pc.hasSet : Pc → Bool
  | .unlockingAll | .fighting | .lockingDestroy | .destroying | .unlockingDestroy | .enteringCycle
  | .inCycle => true
  | _ => false

structure Closing (x : Fin n) (r : Nat) (σ : System n) : Prop where
  ending : Ending x r σ
  earned : Earned r σ
  exact : (σ.pc x).hasSet = true → σ.allHarvested = fieldAllIsHarvested σ.field

theorem lockField?_hasSet {p q : Pc} (h : p.lockField? = some q) : q.hasSet = p.hasSet := by
  cases p <;> cases h <;> rfl

theorem lockQueue?_hasSet {p q : Pc} (h : p.lockQueue? = some q) : q.hasSet = p.hasSet := by
  cases p <;> cases h <;> rfl

theorem unlockQueue?_hasSet {p q : Pc} (h : p.unlockQueue? = some q) : q.hasSet = p.hasSet := by
  cases p <;> cases h <;> rfl

theorem unlockField?_hasSet {p q : Pc} (h : p.unlockField? = some q) : q.hasSet = p.hasSet := by
  cases p
  case unlockingLoop verdict =>
    cases verdict <;> cases h
    rfl
  all_goals cases h <;> rfl

theorem Closing.moved (h : Closing x r σ) (hending : Ending x r σ')
    (hbees : σ'.bees = Function.update σ.bees t b) (hstate : b.state = (σ.bees t).state)
    (hreceived : σ'.queue.received = σ.queue.received) (hfield : σ'.field = σ.field)
    (hall : σ'.allHarvested = σ.allHarvested) (hset : t = x → b.pc.hasSet = true → (σ.pc t).hasSet = true) :
    Closing x r σ' := by
  refine ⟨hending, h.earned.moved hbees hstate hreceived, fun hx => ?_⟩
  rw [hfield, hall]
  refine h.exact ?_
  rw [pc_update hbees] at hx
  by_cases hxt : x = t
  · subst hxt
    rw [Function.update_self] at hx
    exact hset rfl hx
  · rw [Function.update_of_ne hxt] at hx
    exact hx

end

/-! ### Each step -/

variable {args : Args} {p₀ : Pos} {σ σ' : System args.beeAmount} {x : Fin args.beeAmount} {r k : Nat}

theorem Inv.allIsHarvested_of_idle (h : Inv args p₀ σ) (hp₀ : Inside args.width args.height p₀)
    (hqueue : σ.queue.queue = []) (hidle : ∀ t, (σ.bees t).state = .working) :
    fieldAllIsHarvested σ.field = true := by
  rw [fieldAllIsHarvested_iff]
  intro p hp
  rw [h.ok.inside_iff] at hp
  exact ((h.ok.collected p).mp (h.harvested_of_idle hp₀ hqueue hidle hp)).2

theorem Cycling.step {e : Event args.beeAmount} (hok : Ok args σ) (h : Cycling r σ)
    (hs : σ.step e = some σ') :
    Cycling r σ' ∧ (∀ t, e ≠ .bear t) ∨ ∃ x, e = .bear x ∧ Closing x (r + 1) σ' := by
  have hw := h.working
  cases System.step_cases hs with
  | lockField hpc =>
    exact .inl ⟨h.moved (hw.same rfl rfl rfl rfl rfl (lockField?_stage hpc)) rfl rfl rfl id rfl
      fun _ hdue => (lockField?_due hpc).trans hdue, nofun⟩
  | lockQueue hpc =>
    exact .inl ⟨h.moved (hw.same rfl rfl rfl rfl rfl (lockQueue?_stage hpc)) rfl rfl rfl id rfl
      fun _ hdue => (lockQueue?_due hpc).trans hdue, nofun⟩
  | unlockQueue hpc =>
    exact .inl ⟨h.moved (hw.same rfl rfl rfl rfl rfl (unlockQueue?_stage hpc)) rfl rfl rfl id rfl
      fun _ hdue => (unlockQueue?_due hpc).trans hdue, nofun⟩
  | @unlockField t p hpc =>
    rcases unlockField?_stage hpc with hstage | ⟨hfrom, hto⟩ | ⟨hfrom, -⟩
    · refine .inl ⟨h.moved (hw.same rfl rfl rfl rfl rfl hstage) rfl rfl rfl id rfl fun _ hdue => ?_, nofun⟩
      rcases unlockField?_due hpc with hsame | hleft
      · exact hsame.trans hdue
      · rw [hleft] at hpc hstage
        cases hpc
        cases hstage
    · have hat := hw.at_stage t
      rw [hfrom] at hat
      obtain ⟨hbear, hnewCycle, hcondition, hverdicts⟩ := hat
      refine .inl ⟨h.moved (hw.go rfl rfl rfl rfl ?_) rfl rfl rfl id rfl fun hc => ?_, nofun⟩
      · show WorkingAt _ _ _ _ _ p.stage
        rw [hto]
        exact ⟨hbear, hnewCycle, hcondition.symm, hcondition ▸ hverdicts⟩
      · rw [hc] at hcondition
        cases hcondition
    · exact (hw.not_ending hfrom fun _ _ _ _ => id).elim
  | test hpc =>
    obtain ⟨hbear, hnewCycle, hverdicts⟩ := hw.at_pc hpc
    refine .inl ⟨h.moved (hw.go rfl rfl rfl rfl ?_) rfl rfl rfl id rfl fun _ _ => rfl, nofun⟩
    exact ⟨hbear, hnewCycle, rfl, congrArg (· ++ [σ.condition]) hverdicts⟩
  | enterWorking hpc | enterCollecting hpc =>
    obtain ⟨hbear, hnewCycle, hcondition, hverdicts⟩ := hw.at_pc hpc
    refine .inl ⟨h.moved (hw.go rfl rfl rfl rfl ⟨hbear, hnewCycle, hcondition.symm, ?_⟩) rfl rfl rfl id rfl
      fun _ _ => rfl, nofun⟩
    rw [List.replicate_succ']
    exact hcondition ▸ hverdicts
  | checkFresh hpc | checkGone hpc | harvest hpc | lookFresh _ hpc | lookGone _ hpc | lookEnd hpc =>
    exact .inl ⟨h.moved (hw.same rfl rfl rfl rfl rfl (congrArg Pc.stage hpc).symm) rfl rfl rfl id rfl
      fun _ _ => rfl, nofun⟩
  | push hpc =>
    exact .inl ⟨h.moved (hw.same rfl rfl rfl rfl rfl (congrArg Pc.stage hpc).symm) rfl rfl rfl
      (fun _ => List.append_ne_nil_of_right_ne_nil _ (List.cons_ne_nil _ _)) rfl fun _ _ => rfl, nofun⟩
  | pop hpc hq =>
    exact .inl ⟨.of_earned (hw.same rfl rfl rfl rfl rfl (congrArg Pc.stage hpc).symm)
      (h.earned.pop hq ((hok.bees _).state .working (congrArg Pc.branch hpc)) rfl rfl rfl), nofun⟩
  | leave hpc =>
    exact .inl ⟨.of_earned (hw.same rfl rfl rfl rfl rfl (congrArg Pc.stage hpc).symm)
      (h.earned.leave ((hok.bees _).state .collecting (congrArg Pc.branch hpc)) rfl rfl rfl), nofun⟩
  | @noFood t hpc hempty =>
    have hstate := (hok.bees t).state .working (congrArg Pc.branch hpc)
    refine .inl ⟨⟨hw.same rfl rfl rfl rfl rfl (congrArg Pc.stage hpc).symm, h.earned.moved rfl rfl rfl,
      fun hc => ?_⟩, nofun⟩
    rcases h.goesOn hc with hearned | ⟨hne, -⟩ | ⟨u, hu, hout⟩
    · exact .inl (hearned.moved rfl rfl rfl)
    · exact absurd hempty hne
    · have hut : u ≠ t := by
        rintro rfl
        cases hstate.symm.trans hout
      refine .inr (.inr ⟨u, ?_, ?_⟩)
      · show (Function.update σ.bees t _ u).pc.due = true
        rw [Function.update_of_ne hut]
        exact hu
      · show (Function.update σ.bees t _ u).state = .collecting
        rw [Function.update_of_ne hut]
        exact hout
  | enterBear hpc hb =>
    have hat := hw.at_pc hpc
    refine .inl ⟨h.moved (hw.moved rfl (call?_cases hb).2 (Function.update_eq_self ..).symm rfl
      ⟨rfl, hat.2⟩) rfl rfl rfl id rfl fun _ hdue => ?_, nofun⟩
    rw [hpc] at hdue
    cases hdue
  | exitBear hpc hb =>
    have hat := hw.at_pc hpc
    rw [(return?_cases hb).1] at hat
    cases hat.1
  | decideSerial hpc | decide hpc | setAll hpc | lose hpc | survive hpc | destroy hpc
  | enterCycle hpc => exact (hw.not_ending (congrArg Pc.stage hpc) fun _ _ _ _ => id).elim
  | exitCycle hpc hb =>
    have hat := hw.at_pc hpc
    exact .inl ⟨h.moved (hw.moved rfl (Function.update_eq_self ..).symm (return?_cases hb).2 rfl
      ⟨hat.1, rfl, hat.2.2⟩) rfl rfl rfl id rfl fun _ _ => rfl, nofun⟩
  | @completeBear x b hb =>
    refine .inr ⟨x, rfl, hw.complete hb, h.earned_of_complete hb, fun hx => ?_⟩
    have hx' : (σ.pc x).hasSet = true := hx
    rw [(hw.inBear_of_complete hb x).1] at hx'
    cases hx'
  | completeCycle hb => exact (hw.not_complete hb).elim

/-- The second barrier is complete: unless everything is harvested, there is work for the next cycle. -/
theorem Closing.complete {newCycle : Fin args.beeAmount → Place} {t : Fin args.beeAmount}
    (hinv : Inv args p₀ σ) (hp₀ : Inside args.width args.height p₀) (h : Closing x r σ)
    (hcomplete : complete? σ.barrierNewCycle t = some newCycle) :
    Cycling r { σ with barrierNewCycle := newCycle } := by
  have hpc : ∀ u, σ.pc u = .inCycle := by
    intro u
    have hat := h.ending.at_stage u
    rw [(complete?_cases hcomplete).1 u] at hat
    cases hpc : σ.pc u <;> rw [hpc] at hat
    all_goals first | exact hat.elim | exact nomatch hat.2
  have hdue : ∀ u, (σ.pc u).due = true := fun u => congrArg Pc.due (hpc u)
  refine ⟨h.ending.complete hcomplete, h.earned, fun hc => .inr ?_⟩
  have hall : fieldAllIsHarvested σ.field = false := by
    rw [← h.exact (congrArg Pc.hasSet (hpc x))]
    unfold System.condition at hc
    simpa using (Bool.and_eq_true_iff.mp hc).1
  by_cases hidle : ∀ u, (σ.bees u).state = .working
  · refine .inl ⟨fun hqueue => ?_, hdue⟩
    rw [hinv.allIsHarvested_of_idle hp₀ hqueue hidle] at hall
    cases hall
  · obtain ⟨u, hu⟩ := not_forall.mp hidle
    refine .inr ⟨u, hdue u, ?_⟩
    show (σ.bees u).state = .collecting
    cases hstate : (σ.bees u).state with
    | working => exact absurd hstate hu
    | collecting => rfl

theorem Closing.step {e : Event args.beeAmount} (hinv : Inv args p₀ σ)
    (hp₀ : Inside args.width args.height p₀) (h : Closing x r σ) (hs : σ.step e = some σ') :
    Closing x r σ' ∧ (∀ t, e ≠ .newCycle t) ∨ (∃ t, e = .newCycle t) ∧ Cycling r σ' := by
  have he := h.ending
  cases System.step_cases hs with
  | lockField hpc =>
    exact .inl ⟨h.moved (he.same rfl rfl rfl rfl (lockField?_stage hpc)) rfl rfl rfl rfl rfl
      fun _ hset => (lockField?_hasSet hpc).symm.trans hset, nofun⟩
  | lockQueue hpc =>
    exact .inl ⟨h.moved (he.same rfl rfl rfl rfl (lockQueue?_stage hpc)) rfl rfl rfl rfl rfl
      fun _ hset => (lockQueue?_hasSet hpc).symm.trans hset, nofun⟩
  | unlockQueue hpc =>
    exact .inl ⟨h.moved (he.same rfl rfl rfl rfl (unlockQueue?_stage hpc)) rfl rfl rfl rfl rfl
      fun _ hset => (unlockQueue?_hasSet hpc).symm.trans hset, nofun⟩
  | @unlockField t p hpc =>
    refine .inl ⟨h.moved ?_ rfl rfl rfl rfl rfl fun _ hset => (unlockField?_hasSet hpc).symm.trans hset, nofun⟩
    rcases unlockField?_stage hpc with hstage | ⟨hfrom, -⟩ | ⟨hfrom, hto⟩
    · exact he.same rfl rfl rfl rfl hstage
    · exact (he.not_working hfrom fun _ _ _ => id).elim
    · have hat := he.at_stage t
      rw [hfrom] at hat
      refine he.go rfl rfl rfl rfl ?_
      show EndingAt _ _ _ p.stage
      rw [hto]
      exact ⟨hat.1, hat.2.1⟩
  | test hpc | enterWorking hpc | enterCollecting hpc | pop hpc | noFood hpc | checkFresh hpc
  | checkGone hpc | harvest hpc | lookFresh _ hpc | lookGone _ hpc | lookEnd hpc | push hpc | leave hpc
  | enterBear hpc => exact (he.not_working (congrArg Pc.stage hpc) fun _ _ _ => id).elim
  | exitBear hpc hb =>
    have hat := he.at_pc hpc
    obtain ⟨hreleased, hbear⟩ := return?_cases hb
    rw [hreleased] at hat
    exact .inl ⟨h.moved (he.moved rfl hbear (Function.update_eq_self ..).symm rfl
      ⟨rfl, hat.2, Place.released.inj hat.1⟩) rfl rfl rfl rfl rfl nofun, nofun⟩
  | decideSerial hpc =>
    have hat := he.at_pc hpc
    exact .inl ⟨h.moved (he.go rfl rfl rfl rfl ⟨hat.1, hat.2.1, hat.2.2.symm⟩) rfl rfl rfl rfl rfl nofun, nofun⟩
  | decide hpc =>
    have hat := he.at_pc hpc
    refine .inl ⟨h.moved (he.go rfl rfl rfl rfl ⟨hat.1, hat.2.1⟩) rfl rfl rfl rfl rfl fun htx _ => ?_, nofun⟩
    rw [decide_eq_true htx] at hat
    cases hat.2.2
  | @setAll t hpc =>
    have hat := he.at_pc hpc
    obtain rfl : t = x := of_decide_eq_true hat.2.2
    exact .inl ⟨⟨he.same rfl rfl rfl rfl (congrArg Pc.stage hpc).symm, h.earned.moved rfl rfl rfl,
      fun _ => rfl⟩, nofun⟩
  | lose hpc | destroy hpc =>
    exact .inl ⟨h.moved (he.same rfl rfl rfl rfl (congrArg Pc.stage hpc).symm) rfl rfl rfl rfl rfl
      fun _ _ => congrArg Pc.hasSet hpc, nofun⟩
  | survive hpc =>
    have hat := he.at_pc hpc
    exact .inl ⟨h.moved (he.go rfl rfl rfl rfl ⟨hat.1, hat.2.1⟩) rfl rfl rfl rfl rfl
      fun _ _ => congrArg Pc.hasSet hpc, nofun⟩
  | enterCycle hpc hb =>
    have hat := he.at_pc hpc
    exact .inl ⟨h.moved (he.moved rfl (Function.update_eq_self ..).symm (call?_cases hb).2 rfl ⟨hat.1, rfl⟩)
      rfl rfl rfl rfl rfl fun _ _ => congrArg Pc.hasSet hpc, nofun⟩
  | exitCycle hpc hb =>
    have hat := he.at_pc hpc
    rw [(return?_cases hb).1] at hat
    cases hat.2
  | completeBear hb => exact (he.not_complete hb).elim
  | completeCycle hb => exact .inr ⟨⟨_, rfl⟩, h.complete hinv hp₀ hb⟩

/-! ### Runs -/

/-- After `k` steps. -/
structure Timed (args : Args) (p₀ : Pos) (k : Nat) (σ : System args.beeAmount) : Prop where
  inv : Inv args p₀ σ
  flag : FlagOk σ
  phase : (∃ r, Cycling r σ ∧ k ≤ σ.time + 2 * r) ∨ ∃ x r, Closing x r σ ∧ k + 1 ≤ σ.time + 2 * r

namespace Timed

theorem start (r₁ r₂ : Nat) (uninit : Fin args.beeAmount → Pos) :
    Timed args (startPos args r₁ r₂) 0 (System.start args r₁ r₂ uninit) := by
  refine ⟨.start r₁ r₂ uninit, nofun, .inl ⟨0, ⟨⟨fun _ => ⟨rfl, rfl, rfl⟩⟩, ?_, fun _ => .inr (.inl ?_)⟩,
    Nat.zero_le _⟩⟩
  · have hnone : population Bee.out (System.start args r₁ r₂ uninit).bees = 0 :=
      population_eq_zero.mpr fun _ => rfl
    rw [Earned, hnone]
    exact Nat.zero_le _
  · exact ⟨List.cons_ne_nil _ _, fun _ => rfl⟩

theorem step {e : Event args.beeAmount} (hp₀ : Inside args.width args.height p₀)
    (h : Timed args p₀ k σ) (hs : σ.step e = some σ') : Timed args p₀ (k + 1) σ' := by
  refine ⟨h.inv.step hs, h.flag.step hs, ?_⟩
  have htime : σ.time ≤ σ'.time := (time_step hs).elim Nat.le_of_lt fun heq => Nat.le_of_eq heq.1.symm
  rcases h.phase with ⟨r, hphase, hk⟩ | ⟨x, r, hphase, hk⟩
  · rcases hphase.step h.inv.ok hs with ⟨hphase', hne⟩ | ⟨x, rfl, hphase'⟩
    · rcases time_step hs with hlt | ⟨-, ⟨t, rfl⟩ | ⟨t, rfl⟩⟩
      · exact .inl ⟨r, hphase', by omega⟩
      · exact absurd rfl (hne t)
      · obtain ⟨b, hb, -⟩ := Option.map_eq_some_iff.mp hs
        exact (hphase.working.not_complete hb).elim
    · exact .inr ⟨x, r + 1, hphase', by omega⟩
  · rcases hphase.step h.inv hp₀ hs with ⟨hphase', hne⟩ | ⟨⟨t, rfl⟩, hphase'⟩
    · rcases time_step hs with hlt | ⟨-, ⟨t, rfl⟩ | ⟨t, rfl⟩⟩
      · exact .inr ⟨x, r, hphase', by omega⟩
      · obtain ⟨b, hb, -⟩ := Option.map_eq_some_iff.mp hs
        exact (hphase.ending.not_complete hb).elim
      · exact absurd rfl (hne t)
    · exact .inl ⟨r, hphase', by omega⟩

theorem run {events : List (Event args.beeAmount)} (hp₀ : Inside args.width args.height p₀)
    (h : Timed args p₀ k σ) (hr : run System.step σ events = some σ') :
    Timed args p₀ (k + events.length) σ' := by
  induction events generalizing σ k with
  | nil =>
    cases hr
    exact h
  | cons e events ih =>
    obtain ⟨σ₁, hs, hr⟩ := run_cons_eq_some.mp hr
    have hrest := ih (h.step hp₀ hs) hr
    rwa [Nat.add_assoc, Nat.add_comm 1, ← List.length_cons] at hrest

end Timed

/-- The positions that can be flown to: the first one, and one for each two flowers that share a side. -/
def Args.flights (args : Args) : Int :=
  1 + args.width * (args.height - 1) + args.height * (args.width - 1)

theorem Inv.received_le (h : Inv args p₀ σ) : (σ.queue.received.length : Int) ≤ args.flights := by
  have hneighbours : ∀ e ∈ σ.pushes, Inside args.width args.height e.1 ∧
      Inside args.width args.height e.2 ∧ Adj e.1 e.2 := by
    intro e he
    obtain ⟨hvisited, hedge, hopen⟩ := h.exploration.oneWay.reported e he
    exact ⟨graph_closed_eq_false.mp (h.exploration.sound.visited _ hvisited),
      graph_closed_eq_false.mp hopen, mem_graph_neighbours.mp hedge⟩
  have hle := length_le_of_adj args.width_pos args.height_pos h.exploration.oneWay.nodup_sym2 hneighbours
  have hreports : (explored σ).reports.length = σ.pushes.length := rfl
  have hsent : σ.queue.sent = p₀ :: σ.pushes.map Prod.snd := h.exploration.oneWay.sent
  have hlength := congrArg List.length (hsent.symm.trans σ.queue.fifo)
  simp only [List.length_cons, List.length_append, List.length_map] at hlength
  unfold Args.flights
  omega

theorem time_le (h : ∀ t, (σ.bees t).verdicts.length ≤ r + 1) : σ.time ≤ args.beeAmount * (44 * (r + 2)) := by
  have hclock : ∀ t ∈ Finset.univ, (σ.bees t).clock ≤ 44 * (r + 2) := by
    intro t _
    have hverdicts := h t
    have hrank := (σ.bees t).pc.rank_lt
    unfold Bee.clock
    omega
  have hsum := Finset.sum_le_card_nsmul Finset.univ (fun t => (σ.bees t).clock) _ hclock
  rwa [Finset.card_univ, Fintype.card_fin, smul_eq_mul] at hsum

theorem Timed.phases (h : Timed args p₀ k σ) : ∃ r, Earned r σ ∧ k ≤ σ.time + 2 * r ∧
    ∀ t, (σ.bees t).verdicts.length ≤ r + 1 := by
  rcases h.phase with ⟨r, hphase, hk⟩ | ⟨x, r, hphase, hk⟩
  · refine ⟨r, hphase.earned, hk, fun t => ?_⟩
    have hle := (hphase.working.verdicts t).length_le
    rwa [List.length_append, List.length_replicate, List.length_singleton] at hle
  · refine ⟨r, hphase.earned, by omega, fun t => ?_⟩
    rw [hphase.ending.verdicts t, List.length_replicate]
    exact Nat.le_succ r

theorem Timed.phased (h : Timed args p₀ k σ) : Phased args σ := by
  refine ⟨h.inv.ok, h.flag, ?_⟩
  rcases h.phase with ⟨r, hphase, -⟩ | ⟨x, r, hphase, -⟩
  · exact .inl ⟨r, hphase.working⟩
  · exact .inr ⟨x, r, hphase.ending⟩

theorem Inv.perm_positions (h : Inv args p₀ σ)
    (hharvested : (σ.field.harvested : Int) = args.width * args.height) :
    σ.collected.Perm (positions (fieldInit args.width args.height)) := by
  have hsub : σ.collected ⊆ positions (fieldInit args.width args.height) := fun p hp =>
    mem_positions.mpr ((h.ok.collected p).mp hp).1
  refine (List.subperm_of_subset h.exploration.sound.nodup hsub).perm_of_length_le ?_
  rw [h.harvested, ← args.area] at hharvested
  rw [length_positions]
  exact Nat.le_of_eq (by exact_mod_cast hharvested.symm)

/-- What a run of the beehive has come to. -/
structure Ends (args : Args) (events : List (Event args.beeAmount)) (σ : System args.beeAmount) : Prop where
  steps : (events.length : Int) ≤ args.beeAmount * (88 * (args.flights + 1)) + 4 * args.flights
  cycles : ∀ t, ((σ.bees t).verdicts.length : Int) ≤ 2 * args.flights + 1
  ended : Final System.step σ → (∀ t, σ.pc t = .finished) ∧
    (σ.hiveDestroyed = true ∨ σ.collected.Perm (positions (fieldInit args.width args.height)))

theorem runsEnd (args : Args) (r₁ r₂ : Nat) (uninit : Fin args.beeAmount → Pos)
    (events : List (Event args.beeAmount)) (σ : System args.beeAmount)
    (hr : run System.step (System.start args r₁ r₂ uninit) events = some σ) : Ends args events σ := by
  have h := (Timed.start r₁ r₂ uninit).run (startPos_inside args r₁ r₂) hr
  obtain ⟨r, hearned, hsteps, hverdicts⟩ := h.phases
  have hreceived := h.inv.received_le
  have htime := time_le hverdicts
  unfold Earned at hearned
  refine ⟨?_, fun t => ?_, fun hfinal => ?_⟩
  · have hr : (r : Int) ≤ 2 * args.flights := by omega
    have hmul : (args.beeAmount : Int) * (44 * (r + 2)) ≤ args.beeAmount * (88 * (args.flights + 1)) :=
      Int.mul_le_mul_of_nonneg_left (by omega) (Int.natCast_nonneg _)
    have htime' : (σ.time : Int) ≤ args.beeAmount * (44 * (r + 2)) := by exact_mod_cast htime
    have hsteps' : (events.length : Int) ≤ σ.time + 2 * r := by
      rw [Nat.zero_add] at hsteps
      exact_mod_cast hsteps
    omega
  · have hlength := hverdicts t
    omega
  · have hall : ∀ t, σ.pc t = .finished := by
      intro t
      by_contra ht
      obtain ⟨e, σ', hs⟩ := h.phased.goesOn ht
      rw [hfinal e] at hs
      cases hs
    exact ⟨hall, (h.phased.ended hall).imp id h.inv.perm_positions⟩

/-- One flower and `n + 1` bees. -/
def oneFlower (n : Nat) : Args := ⟨1, 1, n + 1, Int.one_pos, Int.one_pos, Nat.succ_pos n⟩

/-- Bee `a` flies out in the first cycle and comes back with the nectar in the second one; then both are
done. -/
def allHarvest (a b : Fin 2) : List (Event 2) :=
  works a 7 ++ works b 7 ++ .bear a :: works a 5 ++ .fight a 5 0 :: works a 1 ++ works b 3 ++
  .newCycle b :: works b 8 ++ works a 14 ++ .bear b :: works a 3 ++ works b 5 ++ .fight b 5 0 ::
  works b 1 ++ .newCycle a :: works a 4 ++ works b 4

theorem runsEnd_allHarvest : ∃ σ,
    run System.step (System.start (oneFlower 1) 0 0 fun _ => ⟨0, 0⟩) (allHarvest 0 1) = some σ ∧
    List.ofFn σ.pc = [.finished, .finished] ∧ σ.collected = [⟨0, 0⟩] ∧
    Ends (oneFlower 1) (allHarvest 0 1) σ := by
  have hrun : (run System.step (System.start (oneFlower 1) 0 0 fun _ => ⟨0, 0⟩) (allHarvest 0 1)).map
      (fun σ => (List.ofFn σ.pc, σ.collected)) =
      some ([.finished, .finished], [⟨0, 0⟩]) := by decide +kernel
  obtain ⟨σ, hr, hσ⟩ := Option.map_eq_some_iff.mp hrun
  obtain ⟨hpcs, hcollected⟩ := Prod.mk.inj hσ
  exact ⟨σ, hr, hpcs, hcollected, runsEnd (oneFlower 1) 0 0 (fun _ => ⟨0, 0⟩) (allHarvest 0 1) σ hr⟩

end OsExercises.Beehive
