import OsExercises.Beehive.Model
import OsExercises.Lib.Mutex

/-!
# The mutexes, the branches and the field

What holds of the beehive between any two steps, apart from who is where in the cycle: the two mutexes
are held by the bees that are between taking them and giving them up; the state of a bee is that of the
branch it is in; a bee that is about to harvest has found its flower fresh, and nobody else can harvest
it in between; and the flowers harvested are those whose nectar was collected.
-/

namespace OsExercises.Beehive
open CyclicBarrier Grid

/-- The state of a bee that is within one of the two branches of the loop, from the test of `state` on
to where `state` is assigned. -/
def Pc.branch : Pc → Option BeeState
  | .lockingQueue | .popping => some .working
  | .lockingField | .checking | .harvesting | .looking _ | .unlockingFound _ | .lockingPush _
  | .pushing _ | .unlockingPush _ | .relocking _ | .unlockingField => some .collecting
  | _ => none

structure BeeOk (field : Field) (b : Bee) : Prop where
  state : ∀ s, b.pc.branch = some s → b.state = s
  fresh : b.pc = .harvesting → fieldIsHarvested field b.position.x b.position.y = false

theorem BeeOk.of_branch {field : Field} {b : Bee} (hbranch : b.pc.branch = none) : BeeOk field b := by
  refine ⟨?_, ?_⟩
  · intro s hs
    rw [hbranch] at hs
    cases hs
  · intro hpc
    rw [hpc] at hbranch
    cases hbranch

theorem BeeOk.go {field : Field} {b : Bee} {p : Pc} (h : BeeOk field b)
    (hbranch : p.branch = b.pc.branch) (hp : p ≠ .harvesting) : BeeOk field { b with pc := p } :=
  ⟨fun s hs => h.state s (hbranch.symm.trans hs), fun hpc => absurd hpc hp⟩

/-! ### Taking a mutex and giving it up -/

theorem lockField?_spec {p q : Pc} (h : p.lockField? = some q) : q.holdsField = true ∧
    q.holdsQueue = p.holdsQueue ∧ q.branch = p.branch ∧ q ≠ .harvesting := by
  cases p <;> cases h <;> exact ⟨rfl, rfl, rfl, nofun⟩

theorem unlockField?_spec {p q : Pc} (h : p.unlockField? = some q) : p.holdsField = true ∧
    q.holdsField = false ∧ q.holdsQueue = p.holdsQueue ∧ q.branch = p.branch ∧ q ≠ .harvesting := by
  cases p
  case unlockingLoop verdict =>
    cases verdict <;> cases h
    exact ⟨rfl, rfl, rfl, rfl, nofun⟩
  all_goals cases h <;> exact ⟨rfl, rfl, rfl, rfl, nofun⟩

theorem lockQueue?_spec {p q : Pc} (h : p.lockQueue? = some q) : q.holdsQueue = true ∧
    q.holdsField = p.holdsField ∧ q.branch = p.branch ∧ q ≠ .harvesting := by
  cases p <;> cases h <;> exact ⟨rfl, rfl, rfl, nofun⟩

theorem unlockQueue?_spec {p q : Pc} (h : p.unlockQueue? = some q) : p.holdsQueue = true ∧
    q.holdsQueue = false ∧ q.holdsField = p.holdsField ∧ q.branch = p.branch ∧ q ≠ .harvesting := by
  cases p <;> cases h <;> exact ⟨rfl, rfl, rfl, rfl, nofun⟩

/-! ### The invariant -/

structure Ok (args : Args) (σ : System args.beeAmount) : Prop where
  width : σ.field.width = args.width
  height : σ.field.height = args.height
  fieldMut : Holder Pc.holdsField σ.fieldMut σ.pc
  queueMut : Holder Pc.holdsQueue σ.queueMut σ.pc
  bees : ∀ t, BeeOk σ.field (σ.bees t)
  collected : ∀ p, p ∈ σ.collected ↔ Inside args.width args.height p ∧ σ.field.flowers p = true

theorem pc_update {n : Nat} {σ τ : System n} {t : Fin n} {b : Bee}
    (h : τ.bees = Function.update σ.bees t b) : τ.pc = Function.update σ.pc t b.pc := by
  show Bee.pc ∘ τ.bees = _
  rw [h, Function.comp_update]
  rfl

namespace Ok

variable {args : Args} {σ σ' : System args.beeAmount} {t : Fin args.beeAmount}

theorem start (r₁ r₂ : Nat) (uninit : Fin args.beeAmount → Pos) :
    Ok args (System.start args r₁ r₂ uninit) := by
  refine ⟨rfl, rfl, fun t => ⟨nofun, nofun⟩, fun t => ⟨nofun, nofun⟩, fun t => .of_branch rfl, ?_⟩
  intro p
  simp [System.start, fieldInit]

theorem inside_iff (h : Ok args σ) (p : Pos) :
    Inside σ.field.width σ.field.height p ↔ Inside args.width args.height p := by
  rw [h.width, h.height]

/-- A flower is fresh if it is inside of the field and its nectar has not been collected. -/
theorem fresh_iff (h : Ok args σ) (p : Pos) : fieldIsHarvested σ.field p.x p.y = false ↔
    Inside args.width args.height p ∧ p ∉ σ.collected := by
  rw [fieldIsHarvested_eq_false, h.inside_iff]
  constructor
  · rintro ⟨hin, hfresh⟩
    refine ⟨hin, fun hp => ?_⟩
    rw [((h.collected p).mp hp).2] at hfresh
    cases hfresh
  · rintro ⟨hin, hp⟩
    refine ⟨hin, ?_⟩
    by_contra hne
    exact hp ((h.collected p).mpr ⟨hin, by simpa using hne⟩)

/-- A step of `t` that leaves the field alone. -/
theorem moved {b : Bee} (h : Ok args σ) (hfield : σ'.field = σ.field)
    (hcollected : σ'.collected = σ.collected) (hbees : σ'.bees = Function.update σ.bees t b)
    (hfieldMut : Holder Pc.holdsField σ'.fieldMut (Function.update σ.pc t b.pc))
    (hqueueMut : Holder Pc.holdsQueue σ'.queueMut (Function.update σ.pc t b.pc))
    (hb : BeeOk σ.field b) : Ok args σ' := by
  refine ⟨hfield ▸ h.width, hfield ▸ h.height, ?_, ?_, ?_, ?_⟩
  · rw [pc_update hbees]
    exact hfieldMut
  · rw [pc_update hbees]
    exact hqueueMut
  · rw [hfield, hbees]
    exact (Function.forall_update_iff ..).mpr ⟨hb, fun u _ => h.bees u⟩
  · rw [hfield, hcollected]
    exact h.collected

/-- A step of `t` that leaves the mutexes alone, too. -/
theorem go {b : Bee} (h : Ok args σ) (hfield : σ'.field = σ.field)
    (hcollected : σ'.collected = σ.collected) (hbees : σ'.bees = Function.update σ.bees t b)
    (hfieldMut : σ'.fieldMut = σ.fieldMut) (hqueueMut : σ'.queueMut = σ.queueMut)
    (hholdsField : b.pc.holdsField = (σ.pc t).holdsField)
    (hholdsQueue : b.pc.holdsQueue = (σ.pc t).holdsQueue) (hb : BeeOk σ.field b) : Ok args σ' :=
  h.moved hfield hcollected hbees (hfieldMut ▸ h.fieldMut.move hholdsField)
    (hqueueMut ▸ h.queueMut.move hholdsQueue) hb

/-- A step of `t` within a branch. -/
theorem stay {p : Pc} (h : Ok args σ) (hfield : σ'.field = σ.field)
    (hcollected : σ'.collected = σ.collected) (hbees : σ'.bees = σ.go t p)
    (hfieldMut : σ'.fieldMut = σ.fieldMut) (hqueueMut : σ'.queueMut = σ.queueMut)
    (hholdsField : p.holdsField = (σ.pc t).holdsField) (hholdsQueue : p.holdsQueue = (σ.pc t).holdsQueue)
    (hbranch : p.branch = (σ.pc t).branch) (hp : p ≠ .harvesting) : Ok args σ' :=
  h.go hfield hcollected hbees hfieldMut hqueueMut hholdsField hholdsQueue ((h.bees t).go hbranch hp)

/-- The bee that harvests is the only one that holds `field_mut`. -/
theorem harvest (h : Ok args σ) (hpc : σ.pc t = .harvesting) : Ok args { σ with
    field := fieldHarvest σ.field (σ.bees t).position.x (σ.bees t).position.y
    bees := σ.go t (.looking 0)
    collected := σ.collected ++ [(σ.bees t).position] } := by
  have hfresh := (h.bees t).fresh hpc
  have hin : Inside args.width args.height (σ.bees t).position := ((h.fresh_iff _).mp hfresh).1
  rw [fieldHarvest_of_inside ((h.inside_iff _).mpr hin)]
  have hbranch : (Pc.looking 0).branch = (σ.pc t).branch := by rw [hpc]; rfl
  refine ⟨h.width, h.height, ?_, ?_, ?_, ?_⟩
  · rw [pc_update (σ := σ) rfl]
    exact h.fieldMut.move (by rw [hpc]; rfl)
  · rw [pc_update (σ := σ) rfl]
    exact h.queueMut.move (by rw [hpc]; rfl)
  · intro u
    by_cases hut : u = t
    · subst hut
      simp only [System.go, Function.update_self]
      exact ⟨((h.bees u).go hbranch nofun).state, nofun⟩
    · simp only [System.go, Function.update_of_ne hut]
      refine ⟨(h.bees u).state, fun hu => ?_⟩
      refine absurd (h.fieldMut.unique ?_ ?_) hut
      · rw [show σ.pc u = _ from hu]
        rfl
      · rw [hpc]
        rfl
  · intro p
    rw [List.mem_append, List.mem_singleton, h.collected]
    by_cases hp : p = (σ.bees t).position
    · subst hp
      simp [hin]
    · simp [hp]

theorem step {e : Event args.beeAmount} (h : Ok args σ) (hs : σ.step e = some σ') : Ok args σ' := by
  cases System.step_cases hs with
  | @lockField t p hpc hfree =>
    obtain ⟨hholds, hqueue, hbranch, hne⟩ := lockField?_spec hpc
    have hmut := h.fieldMut
    rw [hfree] at hmut
    exact h.moved rfl rfl rfl (hmut.acquire hholds) (h.queueMut.move hqueue) ((h.bees t).go hbranch hne)
  | @unlockField t p hpc =>
    obtain ⟨hheld, hholds, hqueue, hbranch, hne⟩ := unlockField?_spec hpc
    exact h.moved rfl rfl rfl (h.fieldMut.release hheld hholds) (h.queueMut.move hqueue)
      ((h.bees t).go hbranch hne)
  | @lockQueue t p hpc hfree =>
    obtain ⟨hholds, hfield, hbranch, hne⟩ := lockQueue?_spec hpc
    have hmut := h.queueMut
    rw [hfree] at hmut
    exact h.moved rfl rfl rfl (h.fieldMut.move hfield) (hmut.acquire hholds) ((h.bees t).go hbranch hne)
  | @unlockQueue t p hpc =>
    obtain ⟨hheld, hholds, hfield, hbranch, hne⟩ := unlockQueue?_spec hpc
    exact h.moved rfl rfl rfl (h.fieldMut.move hfield) (h.queueMut.release hheld hholds)
      ((h.bees t).go hbranch hne)
  | test hpc => exact h.go rfl rfl rfl rfl rfl (by rw [hpc]; rfl) (by rw [hpc]; rfl) (.of_branch rfl)
  | enterWorking hpc hstate | enterCollecting hpc hstate =>
    refine h.moved rfl rfl rfl (h.fieldMut.release (by rw [hpc]; rfl) rfl)
      (h.queueMut.move (by rw [hpc]; rfl)) ⟨?_, nofun⟩
    intro s hs
    cases hs
    exact hstate
  | pop hpc hq => exact h.go rfl rfl rfl rfl rfl (by rw [hpc]; rfl) (by rw [hpc]; rfl) (.of_branch rfl)
  | noFood hpc hempty =>
    exact h.go rfl rfl rfl rfl rfl (by rw [hpc]; rfl) (by rw [hpc]; rfl) (.of_branch rfl)
  | @checkFresh t hpc hfresh =>
    refine h.go rfl rfl rfl rfl rfl (by rw [hpc]; rfl) (by rw [hpc]; rfl) ⟨?_, fun _ => hfresh⟩
    intro s hs
    refine (h.bees t).state s ?_
    rw [show (σ.bees t).pc = _ from hpc]
    exact hs
  | harvest hpc => exact h.harvest hpc
  | checkGone hpc | lookFresh _ hpc | lookGone _ hpc | lookEnd hpc | push hpc =>
    exact h.stay rfl rfl rfl rfl rfl (by rw [hpc]; rfl) (by rw [hpc]; rfl) (by rw [hpc]; rfl) nofun
  | leave hpc =>
    exact h.moved rfl rfl rfl (h.fieldMut.release (by rw [hpc]; rfl) rfl)
      (h.queueMut.move (by rw [hpc]; rfl)) (.of_branch rfl)
  | completeBear => exact ⟨h.width, h.height, h.fieldMut, h.queueMut, h.bees, h.collected⟩
  | completeCycle => exact ⟨h.width, h.height, h.fieldMut, h.queueMut, h.bees, h.collected⟩
  | enterBear hpc | exitBear hpc | decideSerial hpc | decide hpc | setAll hpc | lose hpc | survive hpc
  | destroy hpc | enterCycle hpc | exitCycle hpc =>
    exact h.go rfl rfl rfl rfl rfl (by rw [hpc]; rfl) (by rw [hpc]; rfl) (.of_branch rfl)

end Ok
end OsExercises.Beehive
