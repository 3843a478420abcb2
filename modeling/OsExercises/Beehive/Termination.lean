import OsExercises.Beehive.Cycles

/-!
# The bees agree on the end

All bees evaluate the loop condition while nobody writes the flags, so that they find the same value in
each cycle; nobody waits for a bee that has left; and `all_harvested` is set only if it is the truth.
-/

namespace OsExercises.Beehive
open CyclicBarrier Grid Transition

section

variable {n : Nat} {σ σ' : System n} {t x : Fin n} {r : Nat}

/-! ### The flag -/

def FlagOk (σ : System n) : Prop := σ.allHarvested = true → fieldAllIsHarvested σ.field = true

theorem FlagOk.step {e : Event n} (h : FlagOk σ) (hs : σ.step e = some σ') : FlagOk σ' := by
  cases System.step_cases hs with
  | harvest hpc => exact fun hflag => fieldAllIsHarvested_fieldHarvest (h hflag)
  | setAll hpc => exact id
  | _ => exact h

/-! ### Progress -/

def CanGoOn (σ : System n) : Prop := ∃ e σ', σ.step e = some σ'

theorem canGoOn_of_isSome (e : Event n) (h : (σ.step e).isSome = true) : CanGoOn σ := by
  obtain ⟨σ', hs⟩ := Option.isSome_iff_exists.mp h
  exact ⟨e, σ', hs⟩

theorem canGoOn_of_holdsField (ht : (σ.pc t).holdsField = true) : CanGoOn σ := by
  refine canGoOn_of_isSome (.work t) ?_
  simp only [System.step, System.beeWork]
  cases hpc : (σ.bees t).pc <;> rw [show σ.pc t = _ from hpc] at ht
  case testing => rfl
  case unlockingLoop verdict =>
    cases verdict
    · rfl
    · dsimp only
      cases (σ.bees t).state <;> rfl
  case checking =>
    dsimp only
    split <;> rfl
  case harvesting => rfl
  case looking i =>
    dsimp only
    split
    · split <;> rfl
    · rfl
  case unlockingFound i => rfl
  case unlockingField => rfl
  case settingAll => rfl
  case unlockingAll => rfl
  case destroying => rfl
  case unlockingDestroy => rfl
  all_goals cases ht

theorem canGoOn_of_holdsQueue (ht : (σ.pc t).holdsQueue = true) : CanGoOn σ := by
  refine canGoOn_of_isSome (.work t) ?_
  simp only [System.step, System.beeWork]
  cases hpc : (σ.bees t).pc <;> rw [show σ.pc t = _ from hpc] at ht
  case popping =>
    dsimp only
    split
    · next hne =>
      obtain ⟨q, queue, hq⟩ := σ.queue.receive_isSome (t := t) (by simpa [myqueueIsEmpty] using hne)
      rw [myqueuePop, hq]
      rfl
    · rfl
  case unlockingQueue => rfl
  case pushing i => rfl
  case unlockingPush i => rfl
  all_goals cases ht

theorem canGoOn_of_released {serial : Bool} (hpc : σ.pc t = .inBear)
    (ht : σ.barrierBear t = .released serial) : CanGoOn σ := by
  refine canGoOn_of_isSome (.work t) ?_
  simp only [System.step, System.beeWork, show (σ.bees t).pc = _ from hpc, return?, ht]
  rfl

theorem canGoOn_of_released_newCycle {serial : Bool} (hpc : σ.pc t = .inCycle)
    (ht : σ.barrierNewCycle t = .released serial) : CanGoOn σ := by
  refine canGoOn_of_isSome (.work t) ?_
  simp only [System.step, System.beeWork, show (σ.bees t).pc = _ from hpc, return?, ht]
  rfl

/-- A bee that is neither in a barrier nor finished goes on when both mutexes are free. -/
theorem canGoOn_of_free (hfield : σ.fieldMut = none) (hqueue : σ.queueMut = none)
    (hsleeping : σ.pc t = .sleeping → σ.barrierBear t = .outside)
    (hentering : σ.pc t = .enteringCycle → σ.barrierNewCycle t = .outside)
    (hinBear : σ.pc t ≠ .inBear) (hinCycle : σ.pc t ≠ .inCycle) (hfinished : σ.pc t ≠ .finished) :
    CanGoOn σ := by
  by_cases hheld : (σ.pc t).holdsField = true
  · exact canGoOn_of_holdsField hheld
  by_cases hheld' : (σ.pc t).holdsQueue = true
  · exact canGoOn_of_holdsQueue hheld'
  by_cases hfighting : σ.pc t = .fighting
  · refine canGoOn_of_isSome (.fight t 1 0) ?_
    simp only [System.step, System.fight, hfighting]
    rfl
  refine canGoOn_of_isSome (.work t) ?_
  simp only [System.step, System.beeWork]
  cases hpc : (σ.bees t).pc <;> rw [show σ.pc t = _ from hpc] at *
  case lockingLoop | lockingField | relocking | lockingAll | lockingDestroy =>
    simp only [System.lockField, hfield]
    rfl
  case lockingQueue | lockingPush =>
    simp only [System.lockQueue, hqueue]
    rfl
  case sleeping =>
    simp only [call?, hsleeping rfl]
    rfl
  case enteringCycle =>
    simp only [call?, hentering rfl]
    rfl
  case deciding res => cases res <;> rfl
  case inBear => exact absurd rfl hinBear
  case inCycle => exact absurd rfl hinCycle
  case finished => exact absurd rfl hfinished
  case fighting => exact absurd rfl hfighting
  all_goals first | exact absurd rfl hheld | exact absurd rfl hheld'

theorem Working.canGoOn (h : Working r σ) (hfield : σ.fieldMut = none) (hqueue : σ.queueMut = none)
    (ht : σ.pc t ≠ .finished) : CanGoOn σ := by
  by_cases hcycle : ∃ u, σ.pc u = .inCycle
  · obtain ⟨u, hpc⟩ := hcycle
    obtain ⟨-, ⟨serial, hplace⟩, -⟩ := h.at_pc hpc
    exact canGoOn_of_released_newCycle hpc hplace
  by_cases hlocal : ∃ u, σ.pc u ≠ .inBear ∧ σ.pc u ≠ .finished
  · obtain ⟨u, hinBear, hfinished⟩ := hlocal
    refine canGoOn_of_free hfield hqueue ?_ ?_ hinBear (fun hpc => hcycle ⟨u, hpc⟩) hfinished
    · intro hpc
      exact (h.at_pc hpc).1
    · intro hpc
      exact (h.at_pc hpc).elim
  · -- all unfinished bees wait at the first barrier, so that none has finished
    have hall : ∀ u, σ.pc u ≠ .finished → σ.pc u = .inBear := by
      intro u hu
      by_contra hpc
      exact hlocal ⟨u, hpc, hu⟩
    have hat := h.at_pc (hall t ht)
    have hwaiting : ∀ u, σ.barrierBear u = .waiting := by
      intro u
      have hu := h.at_stage u
      by_cases hfinished : σ.pc u = .finished
      · rw [hfinished, hat.2.2.1] at hu
        cases hu.2.2.1
      · rw [hall u hfinished] at hu
        exact hu.1
    refine canGoOn_of_isSome (.bear t) ?_
    rw [System.step, complete?, if_pos hwaiting]
    rfl

theorem Ending.not_finished (h : Ending x r σ) : σ.pc t ≠ .finished := by
  intro ht
  exact h.at_pc ht

theorem Ending.canGoOn (h : Ending x r σ) (hfield : σ.fieldMut = none) (hqueue : σ.queueMut = none) :
    CanGoOn σ := by
  by_cases hbear : ∃ u, σ.pc u = .inBear
  · obtain ⟨u, hpc⟩ := hbear
    exact canGoOn_of_released hpc (h.at_pc hpc).1
  by_cases hlocal : ∃ u, σ.pc u ≠ .inCycle
  · obtain ⟨u, hinCycle⟩ := hlocal
    refine canGoOn_of_free hfield hqueue ?_ ?_ (fun hpc => hbear ⟨u, hpc⟩) hinCycle h.not_finished
    · intro hpc
      exact (h.at_pc hpc).elim
    · intro hpc
      exact (h.at_pc hpc).2
  · have hwaiting : ∀ u, σ.barrierNewCycle u = .waiting := by
      intro u
      have hpc : σ.pc u = .inCycle := by
        by_contra hpc
        exact hlocal ⟨u, hpc⟩
      exact (h.at_pc hpc).2
    refine canGoOn_of_isSome (.newCycle x) ?_
    rw [System.step, complete?, if_pos hwaiting]
    rfl

/-! ### Agreement -/

theorem Working.verdicts (h : Working r σ) (t : Fin n) :
    (σ.bees t).verdicts <+: List.replicate r true ++ [σ.condition] := by
  have hat := h.at_stage t
  cases hs : (σ.pc t).stage <;> rw [hs] at hat
  case testing => exact hat.2.2 ▸ List.prefix_append ..
  case inCycle => exact hat.2.2 ▸ List.prefix_append ..
  case tested => exact hat.2.2.2 ▸ List.prefix_rfl
  case working | inBear =>
    rw [hat.2.2.1, hat.2.2.2, List.replicate_succ']
  case finished => rw [hat.2.2.1, hat.2.2.2]
  all_goals exact hat.elim

theorem Working.of_finished (h : Working r σ) (ht : σ.pc t = .finished) :
    σ.condition = false ∧ (σ.bees t).verdicts = List.replicate r true ++ [σ.condition] := by
  obtain ⟨-, -, hcondition, hverdicts⟩ := h.at_pc ht
  exact ⟨hcondition, hcondition ▸ hverdicts⟩

/-- When a bee has left, none is at a barrier. -/
theorem Working.not_waiting (h : Working r σ) (ht : σ.pc t = .finished) (u : Fin n) :
    σ.barrierBear u ≠ .waiting ∧ σ.barrierNewCycle u ≠ .waiting := by
  have hcondition := (h.of_finished ht).1
  have hat := h.at_stage u
  cases hs : (σ.pc u).stage <;> rw [hs] at hat
  case inCycle =>
    obtain ⟨hbear, ⟨serial, hnewCycle⟩, -⟩ := hat
    rw [hbear, hnewCycle]
    exact ⟨nofun, nofun⟩
  case inBear =>
    rw [hcondition] at hat
    cases hat.2.2.1
  case testing | tested | working | finished =>
    rw [hat.1, hat.2.1]
    exact ⟨nofun, nofun⟩
  all_goals exact hat.elim

theorem getElem?_extend {α : Type*} {l l' : List α} {i : Nat} {a : α} (h : l <+: l')
    (ha : l[i]? = some a) : l'[i]? = some a := by
  obtain ⟨rest, rfl⟩ := h
  rw [List.getElem?_append_left (List.getElem?_eq_some_iff.mp ha).1, ha]

/-- One list of values has those of all bees as its beginnings. -/
theorem agree_of_common {l : List Bool} (h : ∀ t, (σ.bees t).verdicts <+: l) {t u : Fin n} {i : Nat}
    {v w : Bool} (hv : (σ.bees t).verdicts[i]? = some v) (hw : (σ.bees u).verdicts[i]? = some w) :
    v = w :=
  Option.some.inj ((getElem?_extend (h t) hv).symm.trans (getElem?_extend (h u) hw))

end

/-! ### Runs -/

/-- `verdicts` are the values of the loop condition, one for each cycle. -/
structure CyclesAgree (args : Args) (σ : System args.beeAmount) : Prop where
  verdicts : ∀ t u (i : Nat) v w, (σ.bees t).verdicts[i]? = some v →
    (σ.bees u).verdicts[i]? = some w → v = w
  /-- When a bee has left, the others have begun the same cycles and are at no barrier. -/
  together : ∀ t, σ.pc t = .finished → ∀ u, (σ.bees u).verdicts <+: (σ.bees t).verdicts ∧
    σ.barrierBear u ≠ .waiting ∧ σ.barrierNewCycle u ≠ .waiting
  goesOn : (∃ t, σ.pc t ≠ .finished) → CanGoOn σ
  ended : (∀ t, σ.pc t = .finished) →
    σ.hiveDestroyed = true ∨ (σ.field.harvested : Int) = args.width * args.height

variable {args : Args} {σ σ' : System args.beeAmount}

/-- The two phases, with the mutexes and the flag. -/
structure Phased (args : Args) (σ : System args.beeAmount) : Prop where
  ok : Ok args σ
  flag : FlagOk σ
  phase : (∃ r, Working r σ) ∨ ∃ x r, Ending x r σ

namespace Phased

theorem start (r₁ r₂ : Nat) (uninit : Fin args.beeAmount → Pos) :
    Phased args (System.start args r₁ r₂ uninit) :=
  ⟨.start r₁ r₂ uninit, nofun, .inl ⟨0, ⟨fun _ => ⟨rfl, rfl, rfl⟩⟩⟩⟩

theorem step {e : Event args.beeAmount} (h : Phased args σ) (hs : σ.step e = some σ') :
    Phased args σ' := by
  refine ⟨h.ok.step hs, h.flag.step hs, ?_⟩
  rcases h.phase with ⟨r, hphase⟩ | ⟨x, r, hphase⟩
  · rcases hphase.step hs with hphase | ⟨x, hphase⟩
    · exact .inl ⟨r, hphase⟩
    · exact .inr ⟨x, r + 1, hphase⟩
  · rcases hphase.step hs with hphase | hphase
    · exact .inr ⟨x, r, hphase⟩
    · exact .inl ⟨r, hphase⟩

theorem goesOn (h : Phased args σ) {t : Fin args.beeAmount} (ht : σ.pc t ≠ .finished) : CanGoOn σ := by
  cases hfield : σ.fieldMut with
  | some u => exact canGoOn_of_holdsField ((h.ok.fieldMut u).mp hfield)
  | none =>
    cases hqueue : σ.queueMut with
    | some u => exact canGoOn_of_holdsQueue ((h.ok.queueMut u).mp hqueue)
    | none =>
      rcases h.phase with ⟨r, hphase⟩ | ⟨x, r, hphase⟩
      · exact hphase.canGoOn hfield hqueue ht
      · exact hphase.canGoOn hfield hqueue

theorem ended (h : Phased args σ) (hall : ∀ t, σ.pc t = .finished) :
    σ.hiveDestroyed = true ∨ (σ.field.harvested : Int) = args.width * args.height := by
  have hbee := hall ⟨0, args.beeAmount_pos⟩
  rcases h.phase with ⟨r, hphase⟩ | ⟨x, r, hphase⟩
  · have hcondition := (hphase.of_finished hbee).1
    unfold System.condition at hcondition
    cases hdestroyed : σ.hiveDestroyed with
    | true => exact .inl rfl
    | false =>
      have hflag : σ.allHarvested = true := by simpa [hdestroyed] using hcondition
      refine .inr ?_
      rw [Field.harvested_of_all (h.flag hflag), h.ok.width, h.ok.height, args.area]
  · exact absurd hbee hphase.not_finished

end Phased

theorem cyclesAgree (args : Args) (r₁ r₂ : Nat) (uninit : Fin args.beeAmount → Pos)
    (events : List (Event args.beeAmount)) (σ : System args.beeAmount)
    (hr : run System.step (System.start args r₁ r₂ uninit) events = some σ) : CyclesAgree args σ := by
  have h : Phased args σ := run_inv (fun _ _ _ h hs => h.step hs) (.start r₁ r₂ uninit) hr
  refine ⟨?_, ?_, fun ⟨t, ht⟩ => h.goesOn ht, h.ended⟩
  · intro t u i v w hv hw
    rcases h.phase with ⟨r, hphase⟩ | ⟨x, r, hphase⟩
    · exact agree_of_common hphase.verdicts hv hw
    · exact agree_of_common (l := List.replicate r true) (fun t => by rw [hphase.verdicts t]) hv hw
  · intro t ht u
    rcases h.phase with ⟨r, hphase⟩ | ⟨x, r, hphase⟩
    · rw [(hphase.of_finished ht).2]
      exact ⟨hphase.verdicts u, hphase.not_waiting ht u⟩
    · exact absurd ht hphase.not_finished

/-- The bear destroys the beehive in the first cycle. -/
def lostFight (a b : Fin 2) : List (Event 2) :=
  works a 7 ++ works b 7 ++ .bear a :: works a 5 ++ .fight a 0 1 :: works a 4 ++ works b 3 ++
  .newCycle b :: works b 4 ++ works a 4

theorem cyclesAgree_lostFight : ∃ σ,
    run System.step (System.start (smallArgs 1) 0 0 fun _ => ⟨0, 0⟩) (lostFight 0 1) = some σ ∧
    (∀ t, σ.pc t = .finished ∧ (σ.bees t).verdicts = [true, false]) ∧ CyclesAgree (smallArgs 1) σ := by
  have hrun : (run System.step (System.start (smallArgs 1) 0 0 fun _ => ⟨0, 0⟩) (lostFight 0 1)).map
      (fun σ => List.ofFn fun t => (σ.pc t, (σ.bees t).verdicts)) =
      some [(.finished, [true, false]), (.finished, [true, false])] := by decide +kernel
  obtain ⟨σ, hr, hσ⟩ := Option.map_eq_some_iff.mp hrun
  refine ⟨σ, hr, fun t => ?_, cyclesAgree (smallArgs 1) 0 0 (fun _ => ⟨0, 0⟩) (lostFight 0 1) σ hr⟩
  have hmem : (σ.pc t, (σ.bees t).verdicts) ∈ List.ofFn fun t => (σ.pc t, (σ.bees t).verdicts) :=
    List.mem_ofFn.mpr ⟨t, rfl⟩
  rw [hσ] at hmem
  obtain ⟨hpc, hverdicts⟩ : σ.pc t = .finished ∧ (σ.bees t).verdicts = [true, false] := by
    simpa using hmem
  exact ⟨hpc, hverdicts⟩

end OsExercises.Beehive
