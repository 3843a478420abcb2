import OsExercises.Beehive.Flowers

/-!
# The cycles of the bees

Between the completion of the second barrier and that of the first one all bees evaluate the loop
condition and work or leave, and nobody writes the flags (`Working`); between the completion of the first
barrier and that of the second one the serial thread writes the flags, and the others do nothing but call
the second barrier (`Ending`). A state is in one of the two phases, and a bee in a barrier of the other
phase has been let go from it.
-/

namespace OsExercises.Beehive
open CyclicBarrier Grid Transition

/-- The part of a cycle a bee is in. -/
inductive Stage where
  /-- Evaluates the loop condition. -/
  | testing
  | tested (verdict : Bool)
  | working
  | inBear
  | deciding (res : Bool)
  /-- In the branch of the serial thread. -/
  | serial
  | enteringCycle
  | inCycle
  | finished

def Pc.stage : Pc → Stage
  | .lockingLoop | .testing => .testing
  | .unlockingLoop verdict => .tested verdict
  | .lockingQueue | .popping | .unlockingQueue | .lockingField | .checking | .harvesting | .looking _
  | .unlockingFound _ | .lockingPush _ | .pushing _ | .unlockingPush _ | .relocking _ | .unlockingField
  | .sleeping => .working
  | .inBear => .inBear
  | .deciding res => .deciding res
  | .lockingAll | .settingAll | .unlockingAll | .fighting | .lockingDestroy | .destroying
  | .unlockingDestroy => .serial
  | .enteringCycle => .enteringCycle
  | .inCycle => .inCycle
  | .finished => .finished

/-- What holds of a bee in its cycle `r`, where `condition` is the loop condition. -/
def WorkingAt (condition : Bool) (r : Nat) (bear newCycle : Place) (verdicts : List Bool) : Stage → Prop
  | .inCycle =>
    bear = .outside ∧ (∃ serial, newCycle = .released serial) ∧ verdicts = List.replicate r true
  | .testing => bear = .outside ∧ newCycle = .outside ∧ verdicts = List.replicate r true
  | .tested verdict => bear = .outside ∧ newCycle = .outside ∧ verdict = condition ∧
    verdicts = List.replicate r true ++ [condition]
  | .working => bear = .outside ∧ newCycle = .outside ∧ condition = true ∧
    verdicts = List.replicate (r + 1) true
  | .inBear => bear = .waiting ∧ newCycle = .outside ∧ condition = true ∧
    verdicts = List.replicate (r + 1) true
  | .finished => bear = .outside ∧ newCycle = .outside ∧ condition = false ∧
    verdicts = List.replicate r true ++ [false]
  | _ => False

/-- What holds of a bee at the end of the cycle, where `serial` tells whether it is the serial thread. -/
def EndingAt (serial : Bool) (bear newCycle : Place) : Stage → Prop
  | .inBear => bear = .released serial ∧ newCycle = .outside
  | .deciding res => bear = .outside ∧ newCycle = .outside ∧ res = serial
  | .serial => bear = .outside ∧ newCycle = .outside ∧ serial = true
  | .enteringCycle => bear = .outside ∧ newCycle = .outside
  | .inCycle => bear = .outside ∧ newCycle = .waiting
  | _ => False

section

variable {n : Nat}

/-- The cycles are numbered from `0`. -/
structure Working (r : Nat) (σ : System n) : Prop where
  at_stage : ∀ t, WorkingAt σ.condition r (σ.barrierBear t) (σ.barrierNewCycle t) (σ.bees t).verdicts
    (σ.pc t).stage

/-- Bee `x` is the serial thread, and `r` cycles have begun. -/
structure Ending (x : Fin n) (r : Nat) (σ : System n) : Prop where
  at_stage : ∀ t, EndingAt (t = x) (σ.barrierBear t) (σ.barrierNewCycle t) (σ.pc t).stage
  verdicts : ∀ t, (σ.bees t).verdicts = List.replicate r true

theorem lockField?_stage {p q : Pc} (h : p.lockField? = some q) : q.stage = p.stage := by
  cases p <;> cases h <;> rfl

theorem lockQueue?_stage {p q : Pc} (h : p.lockQueue? = some q) : q.stage = p.stage := by
  cases p <;> cases h <;> rfl

theorem unlockQueue?_stage {p q : Pc} (h : p.unlockQueue? = some q) : q.stage = p.stage := by
  cases p <;> cases h <;> rfl

theorem unlockField?_stage {p q : Pc} (h : p.unlockField? = some q) : q.stage = p.stage ∨
    p.stage = .tested false ∧ q.stage = .finished ∨ p.stage = .serial ∧ q.stage = .enteringCycle := by
  cases p
  case unlockingLoop verdict =>
    cases verdict <;> cases h
    exact .inr (.inl ⟨rfl, rfl⟩)
  case unlockingDestroy =>
    cases h
    exact .inr (.inr ⟨rfl, rfl⟩)
  all_goals cases h <;> exact .inl rfl

variable {σ σ' : System n} {t x : Fin n} {r : Nat} {b : Bee} {bear newCycle : Place}

/-- What holds of every bee holds after a step of `t` if it holds of `t` then. -/
theorem forall_update {P : Fin n → Place → Place → Bee → Prop}
    (h : ∀ u, P u (σ.barrierBear u) (σ.barrierNewCycle u) (σ.bees u))
    (hbees : σ'.bees = Function.update σ.bees t b)
    (hbear : σ'.barrierBear = Function.update σ.barrierBear t bear)
    (hnewCycle : σ'.barrierNewCycle = Function.update σ.barrierNewCycle t newCycle)
    (ht : P t bear newCycle b) (u : Fin n) :
    P u (σ'.barrierBear u) (σ'.barrierNewCycle u) (σ'.bees u) := by
  rw [hbear, hnewCycle, hbees]
  by_cases hut : u = t
  · subst hut
    simp only [Function.update_self]
    exact ht
  · simp only [Function.update_of_ne hut]
    exact h u

namespace Working

theorem at_pc {p : Pc} (h : Working r σ) (hpc : σ.pc t = p) : WorkingAt σ.condition r (σ.barrierBear t)
    (σ.barrierNewCycle t) (σ.bees t).verdicts p.stage :=
  hpc ▸ h.at_stage t

/-- A step of `t` that leaves the flags alone. -/
theorem moved (h : Working r σ) (hbees : σ'.bees = Function.update σ.bees t b)
    (hbear : σ'.barrierBear = Function.update σ.barrierBear t bear)
    (hnewCycle : σ'.barrierNewCycle = Function.update σ.barrierNewCycle t newCycle)
    (hcondition : σ'.condition = σ.condition)
    (ht : WorkingAt σ.condition r bear newCycle b.verdicts b.pc.stage) : Working r σ' := by
  refine ⟨?_⟩
  rw [hcondition]
  exact forall_update (P := fun _ bear newCycle b =>
    WorkingAt σ.condition r bear newCycle b.verdicts b.pc.stage) h.at_stage hbees hbear hnewCycle ht

/-- A step of `t` in no barrier. -/
theorem go (h : Working r σ) (hbees : σ'.bees = Function.update σ.bees t b)
    (hbear : σ'.barrierBear = σ.barrierBear) (hnewCycle : σ'.barrierNewCycle = σ.barrierNewCycle)
    (hcondition : σ'.condition = σ.condition)
    (ht : WorkingAt σ.condition r (σ.barrierBear t) (σ.barrierNewCycle t) b.verdicts b.pc.stage) :
    Working r σ' :=
  h.moved hbees (by rw [hbear, Function.update_eq_self]) (by rw [hnewCycle, Function.update_eq_self])
    hcondition ht

/-- A step of `t` within a part of the cycle. -/
theorem same (h : Working r σ) (hbees : σ'.bees = Function.update σ.bees t b)
    (hbear : σ'.barrierBear = σ.barrierBear) (hnewCycle : σ'.barrierNewCycle = σ.barrierNewCycle)
    (hcondition : σ'.condition = σ.condition) (hverdicts : b.verdicts = (σ.bees t).verdicts)
    (hstage : b.pc.stage = (σ.pc t).stage) : Working r σ' := by
  refine h.go hbees hbear hnewCycle hcondition ?_
  rw [hverdicts, hstage]
  exact h.at_stage t

theorem not_ending (h : Working r σ) {s : Stage} (hs : (σ.pc t).stage = s)
    (hnot : ∀ condition bear newCycle verdicts, ¬ WorkingAt condition r bear newCycle verdicts s) :
    False := by
  have hat := h.at_stage t
  rw [hs] at hat
  exact hnot _ _ _ _ hat

/-- The first barrier is complete. -/
theorem complete {bear : Fin n → Place} (h : Working r σ)
    (hcomplete : complete? σ.barrierBear x = some bear) :
    Ending x (r + 1) { σ with barrierBear := bear } := by
  obtain ⟨hwaiting, rfl⟩ := complete?_cases hcomplete
  have hall : ∀ t, (σ.pc t).stage = .inBear ∧ σ.barrierNewCycle t = .outside ∧
      (σ.bees t).verdicts = List.replicate (r + 1) true := by
    intro t
    have hat := h.at_stage t
    rw [hwaiting t] at hat
    cases hs : (σ.pc t).stage <;> rw [hs] at hat
    case inBear => exact ⟨rfl, hat.2.1, hat.2.2.2⟩
    all_goals first | exact hat.elim | exact nomatch hat.1
  refine ⟨fun t => ?_, fun t => (hall t).2.2⟩
  show EndingAt _ _ _ (σ.pc t).stage
  rw [(hall t).1]
  exact ⟨rfl, (hall t).2.1⟩

theorem not_complete {newCycle : Fin n → Place} (h : Working r σ)
    (hcomplete : complete? σ.barrierNewCycle x = some newCycle) : False := by
  have hat := h.at_stage x
  rw [(complete?_cases hcomplete).1 x] at hat
  cases hs : (σ.pc x).stage <;> rw [hs] at hat
  case inCycle => exact nomatch hat.2.1.choose_spec
  all_goals first | exact hat.elim | exact nomatch hat.2.1

theorem step {e : Event n} (h : Working r σ) (hs : σ.step e = some σ') :
    Working r σ' ∨ ∃ x, Ending x (r + 1) σ' := by
  cases System.step_cases hs with
  | lockField hpc => exact .inl (h.same rfl rfl rfl rfl rfl (lockField?_stage hpc))
  | lockQueue hpc => exact .inl (h.same rfl rfl rfl rfl rfl (lockQueue?_stage hpc))
  | unlockQueue hpc => exact .inl (h.same rfl rfl rfl rfl rfl (unlockQueue?_stage hpc))
  | @unlockField t p hpc =>
    rcases unlockField?_stage hpc with hstage | ⟨hfrom, hto⟩ | ⟨hfrom, hto⟩
    · exact .inl (h.same rfl rfl rfl rfl rfl hstage)
    · have hat := h.at_stage t
      rw [hfrom] at hat
      obtain ⟨hbear, hnewCycle, hcondition, hverdicts⟩ := hat
      refine .inl (h.go rfl rfl rfl rfl ?_)
      show WorkingAt _ _ _ _ _ p.stage
      rw [hto]
      exact ⟨hbear, hnewCycle, hcondition.symm, hcondition ▸ hverdicts⟩
    · exact (h.not_ending hfrom fun _ _ _ _ => id).elim
  | test hpc =>
    obtain ⟨hbear, hnewCycle, hverdicts⟩ := h.at_pc hpc
    exact .inl (h.go rfl rfl rfl rfl ⟨hbear, hnewCycle, rfl, congrArg (· ++ [σ.condition]) hverdicts⟩)
  | enterWorking hpc | enterCollecting hpc =>
    obtain ⟨hbear, hnewCycle, hcondition, hverdicts⟩ := h.at_pc hpc
    refine .inl (h.go rfl rfl rfl rfl ⟨hbear, hnewCycle, hcondition.symm, ?_⟩)
    rw [List.replicate_succ']
    exact hcondition ▸ hverdicts
  | pop hpc | noFood hpc | checkFresh hpc | checkGone hpc | harvest hpc | lookFresh _ hpc
  | lookGone _ hpc | lookEnd hpc | push hpc | leave hpc =>
    exact .inl (h.same rfl rfl rfl rfl rfl (congrArg Pc.stage hpc).symm)
  | enterBear hpc hb =>
    have hat := h.at_pc hpc
    exact .inl (h.moved rfl (call?_cases hb).2 (Function.update_eq_self ..).symm rfl ⟨rfl, hat.2⟩)
  | exitBear hpc hb =>
    have hat := h.at_pc hpc
    rw [(return?_cases hb).1] at hat
    cases hat.1
  | decideSerial hpc | decide hpc | setAll hpc | lose hpc | survive hpc | destroy hpc
  | enterCycle hpc => exact (h.not_ending (congrArg Pc.stage hpc) fun _ _ _ _ => id).elim
  | exitCycle hpc hb =>
    have hat := h.at_pc hpc
    exact .inl (h.moved rfl (Function.update_eq_self ..).symm (return?_cases hb).2 rfl
      ⟨hat.1, rfl, hat.2.2⟩)
  | completeBear hb => exact .inr ⟨_, h.complete hb⟩
  | completeCycle hb => exact (h.not_complete hb).elim

end Working

namespace Ending

theorem at_pc {p : Pc} (h : Ending x r σ) (hpc : σ.pc t = p) :
    EndingAt (t = x) (σ.barrierBear t) (σ.barrierNewCycle t) p.stage :=
  hpc ▸ h.at_stage t

theorem moved (h : Ending x r σ) (hbees : σ'.bees = Function.update σ.bees t b)
    (hbear : σ'.barrierBear = Function.update σ.barrierBear t bear)
    (hnewCycle : σ'.barrierNewCycle = Function.update σ.barrierNewCycle t newCycle)
    (hverdicts : b.verdicts = (σ.bees t).verdicts) (ht : EndingAt (t = x) bear newCycle b.pc.stage) :
    Ending x r σ' := by
  refine ⟨?_, ?_⟩
  · exact forall_update (P := fun u bear newCycle b => EndingAt (u = x) bear newCycle b.pc.stage)
      h.at_stage hbees hbear hnewCycle ht
  · exact forall_update (P := fun _ _ _ b => b.verdicts = List.replicate r true)
      h.verdicts hbees hbear hnewCycle (hverdicts.trans (h.verdicts t))

theorem go (h : Ending x r σ) (hbees : σ'.bees = Function.update σ.bees t b)
    (hbear : σ'.barrierBear = σ.barrierBear) (hnewCycle : σ'.barrierNewCycle = σ.barrierNewCycle)
    (hverdicts : b.verdicts = (σ.bees t).verdicts)
    (ht : EndingAt (t = x) (σ.barrierBear t) (σ.barrierNewCycle t) b.pc.stage) : Ending x r σ' :=
  h.moved hbees (by rw [hbear, Function.update_eq_self]) (by rw [hnewCycle, Function.update_eq_self])
    hverdicts ht

theorem same (h : Ending x r σ) (hbees : σ'.bees = Function.update σ.bees t b)
    (hbear : σ'.barrierBear = σ.barrierBear) (hnewCycle : σ'.barrierNewCycle = σ.barrierNewCycle)
    (hverdicts : b.verdicts = (σ.bees t).verdicts) (hstage : b.pc.stage = (σ.pc t).stage) :
    Ending x r σ' := by
  refine h.go hbees hbear hnewCycle hverdicts ?_
  rw [hstage]
  exact h.at_stage t

theorem not_working (h : Ending x r σ) {s : Stage} (hs : (σ.pc t).stage = s)
    (hnot : ∀ serial bear newCycle, ¬ EndingAt serial bear newCycle s) : False := by
  have hat := h.at_stage t
  rw [hs] at hat
  exact hnot _ _ _ hat

/-- The second barrier is complete. -/
theorem complete {newCycle : Fin n → Place} (h : Ending x r σ)
    (hcomplete : complete? σ.barrierNewCycle t = some newCycle) :
    Working r { σ with barrierNewCycle := newCycle } := by
  obtain ⟨hwaiting, rfl⟩ := complete?_cases hcomplete
  refine ⟨fun u => ?_⟩
  have hat := h.at_stage u
  rw [hwaiting u] at hat
  show WorkingAt _ _ _ _ _ (σ.pc u).stage
  cases hs : (σ.pc u).stage <;> rw [hs] at hat
  case inCycle => exact ⟨hat.1, ⟨_, rfl⟩, h.verdicts u⟩
  all_goals first | exact hat.elim | exact nomatch hat.2

theorem not_complete {bear : Fin n → Place} (h : Ending x r σ)
    (hcomplete : complete? σ.barrierBear t = some bear) : False := by
  have hat := h.at_stage t
  rw [(complete?_cases hcomplete).1 t] at hat
  cases hs : (σ.pc t).stage <;> rw [hs] at hat <;> first
    | exact hat.elim
    | exact nomatch hat.1

theorem step {e : Event n} (h : Ending x r σ) (hs : σ.step e = some σ') :
    Ending x r σ' ∨ Working r σ' := by
  cases System.step_cases hs with
  | lockField hpc => exact .inl (h.same rfl rfl rfl rfl (lockField?_stage hpc))
  | lockQueue hpc => exact .inl (h.same rfl rfl rfl rfl (lockQueue?_stage hpc))
  | unlockQueue hpc => exact .inl (h.same rfl rfl rfl rfl (unlockQueue?_stage hpc))
  | @unlockField t p hpc =>
    rcases unlockField?_stage hpc with hstage | ⟨hfrom, hto⟩ | ⟨hfrom, hto⟩
    · exact .inl (h.same rfl rfl rfl rfl hstage)
    · exact (h.not_working hfrom fun _ _ _ => id).elim
    · have hat := h.at_stage t
      rw [hfrom] at hat
      refine .inl (h.go rfl rfl rfl rfl ?_)
      show EndingAt _ _ _ p.stage
      rw [hto]
      exact ⟨hat.1, hat.2.1⟩
  | test hpc | enterWorking hpc | enterCollecting hpc | pop hpc | noFood hpc | checkFresh hpc
  | checkGone hpc | harvest hpc | lookFresh _ hpc | lookGone _ hpc | lookEnd hpc | push hpc | leave hpc
  | enterBear hpc => exact (h.not_working (congrArg Pc.stage hpc) fun _ _ _ => id).elim
  | exitBear hpc hb =>
    have hat := h.at_pc hpc
    obtain ⟨hreleased, hbear⟩ := return?_cases hb
    rw [hreleased] at hat
    exact .inl (h.moved rfl hbear (Function.update_eq_self ..).symm rfl
      ⟨rfl, hat.2, Place.released.inj hat.1⟩)
  | decideSerial hpc =>
    have hat := h.at_pc hpc
    exact .inl (h.go rfl rfl rfl rfl ⟨hat.1, hat.2.1, hat.2.2.symm⟩)
  | decide hpc =>
    have hat := h.at_pc hpc
    exact .inl (h.go rfl rfl rfl rfl ⟨hat.1, hat.2.1⟩)
  | setAll hpc | lose hpc | destroy hpc =>
    exact .inl (h.same rfl rfl rfl rfl (congrArg Pc.stage hpc).symm)
  | survive hpc =>
    have hat := h.at_pc hpc
    exact .inl (h.go rfl rfl rfl rfl ⟨hat.1, hat.2.1⟩)
  | enterCycle hpc hb =>
    have hat := h.at_pc hpc
    exact .inl (h.moved rfl (Function.update_eq_self ..).symm (call?_cases hb).2 rfl ⟨hat.1, rfl⟩)
  | exitCycle hpc hb =>
    have hat := h.at_pc hpc
    rw [(return?_cases hb).1] at hat
    cases hat.2
  | completeBear hb => exact (h.not_complete hb).elim
  | completeCycle hb => exact .inr (h.complete hb)

end Ending

end

end OsExercises.Beehive
