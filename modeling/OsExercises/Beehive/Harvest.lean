import OsExercises.Beehive.Invariant
import OsExercises.Lib.Exploration

/-!
# The bees explore the field

To harvest a flower is to visit it: the beehive is an exploration (`Lib/Exploration.lean`) of the grid
from the queue, in which a bee in state `COLLECTING` carries its position until it has harvested it, and
a position outside of the field is closed (`explored_step`). What holds of every exploration holds of the
beehive.
-/

namespace OsExercises.Beehive
open CyclicBarrier Grid Exploration

/-- The neighbours of `p` from the `i`th on. -/
def rest (p : Pos) (i : Nat) : List Pos := (List.ofFn (neighbours p)).drop i

def graph (args : Args) : Graph Pos where
  neighbours := fun p => List.ofFn (neighbours p)
  closed := fun p => !decide (Inside args.width args.height p)

def activity (b : Bee) : Activity Pos :=
  match b.pc with
  | .looking i => .exploring b.position (rest b.position i)
  | .unlockingFound i | .lockingPush i | .pushing i =>
    .reporting b.position (neighbours b.position i) (rest b.position (i + 1))
  | .unlockingPush i | .relocking i => .exploring b.position (rest b.position (i + 1))
  | .unlockingField => .idle
  | _ =>
    match b.state with
    | .working => .idle
    | .collecting => .carrying b.position

def explored {n : Nat} (σ : System n) : State (Fin n) Pos :=
  ⟨σ.queue, fun t => activity (σ.bees t), σ.collected, σ.pushes⟩

theorem rest_fin (p : Pos) (i : Fin 4) : rest p i = neighbours p i :: rest p (i + 1) := by
  have hi : (i : Nat) < (List.ofFn (neighbours p)).length := by rw [List.length_ofFn]; exact i.isLt
  unfold rest
  rw [List.drop_eq_getElem_cons hi, List.getElem_ofFn]

theorem rest_of_le {p : Pos} {i : Nat} (h : ¬ i < 4) : rest p i = [] := by
  unfold rest
  rw [List.drop_eq_nil_iff]
  simp
  omega

theorem mem_graph_neighbours {args : Args} {p q : Pos} : q ∈ (graph args).neighbours p ↔ Adj p q := by
  rw [show (graph args).neighbours p = List.ofFn (neighbours p) from rfl, List.mem_ofFn]
  constructor
  · rintro ⟨i, rfl⟩
    exact adj_neighbours p i
  · exact exists_neighbours

theorem nodup_graph_neighbours {args : Args} (p : Pos) : ((graph args).neighbours p).Nodup :=
  List.nodup_ofFn.mpr (neighbours_injective p)

theorem graph_closed_eq_false {args : Args} {p : Pos} :
    (graph args).closed p = false ↔ Inside args.width args.height p := by
  simp [graph]

/-! ### Activities -/

theorem activity_lockField {b : Bee} {q : Pc} (h : b.pc.lockField? = some q) :
    activity { b with pc := q } = activity b := by
  obtain ⟨p, state, position, verdicts⟩ := b
  cases p <;> cases h <;> rfl

theorem activity_unlockField {b : Bee} {q : Pc} (h : b.pc.unlockField? = some q) :
    activity { b with pc := q } = activity b := by
  obtain ⟨p, state, position, verdicts⟩ := b
  cases p
  case unlockingLoop verdict =>
    cases verdict <;> cases h
    rfl
  all_goals cases h <;> rfl

theorem activity_lockQueue {b : Bee} {q : Pc} (h : b.pc.lockQueue? = some q) :
    activity { b with pc := q } = activity b := by
  obtain ⟨p, state, position, verdicts⟩ := b
  cases p <;> cases h <;> rfl

theorem activity_unlockQueue {b : Bee} {q : Pc} (h : b.pc.unlockQueue? = some q) :
    activity { b with pc := q } = activity b := by
  obtain ⟨p, state, position, verdicts⟩ := b
  cases p <;> cases h <;> rfl

/-- A bee that is in neither branch carries its position if it is collecting. -/
theorem activity_of_branch {b : Bee} (h : b.pc.branch = none) : activity b =
    match b.state with
    | .working => .idle
    | .collecting => .carrying b.position := by
  obtain ⟨p, state, position, verdicts⟩ := b
  cases p <;> first | rfl | cases h

/-- A bee that is working is not between popping a position and the end of the branch. -/
theorem activity_of_working {field : Field} {b : Bee} (hb : BeeOk field b) (h : b.state = .working) :
    activity b = .idle := by
  obtain ⟨p, state, position, verdicts⟩ := b
  obtain rfl : state = .working := h
  cases p <;> first
    | rfl
    | exact nomatch hb.state .collecting rfl

theorem activity_eq_carrying {b : Bee} {p : Pos} (h : activity b = .carrying p) :
    b.state = .collecting ∧ b.position = p := by
  obtain ⟨pc, state, position, verdicts⟩ := b
  cases pc <;> cases state <;> cases h <;> exact ⟨rfl, rfl⟩

variable {args : Args} {σ σ' : System args.beeAmount} {t : Fin args.beeAmount}

theorem activity_at {p : Pc} (hpc : σ.pc t = p) :
    activity (σ.bees t) = activity { σ.bees t with pc := p } := by
  subst hpc
  rfl

theorem activity_carrying {field : Field} {b : Bee} (hb : BeeOk field b)
    (hpc : b.pc = .checking ∨ b.pc = .harvesting) : activity b = .carrying b.position := by
  obtain ⟨p, state, position, verdicts⟩ := b
  rcases hpc with hpc | hpc
  · obtain rfl : p = .checking := hpc
    obtain rfl : state = .collecting := hb.state _ rfl
    rfl
  · obtain rfl : p = .harvesting := hpc
    obtain rfl : state = .collecting := hb.state _ rfl
    rfl

theorem activity_looking {b : Bee} {i : Fin 4} (hpc : b.pc = .looking i) : activity b =
    .exploring b.position (neighbours b.position i :: rest b.position (i + 1)) := by
  obtain ⟨p, state, position, verdicts⟩ := b
  obtain rfl : p = .looking i := hpc
  rw [← rest_fin]
  rfl

/-! ### Each step of the beehive is one of the exploration, or none -/

theorem done_iff (h : Ok args σ) (p : Pos) :
    Done (graph args) (explored σ) p ↔ fieldIsHarvested σ.field p.x p.y = true := by
  rw [← not_iff_not, not_done, graph_closed_eq_false, Bool.not_eq_true, h.fresh_iff]
  rfl

theorem not_done_of_fresh (h : Ok args σ) {p : Pos} (hp : fieldIsHarvested σ.field p.x p.y = false) :
    ¬ Done (graph args) (explored σ) p := by
  rw [done_iff h, hp]
  exact Bool.false_ne_true

theorem explored_activity {b : Bee} (hbees : σ'.bees = Function.update σ.bees t b) :
    (explored σ').activity = Function.update (explored σ).activity t (activity b) := by
  show activity ∘ σ'.bees = _
  rw [hbees, Function.comp_update]
  rfl

/-- A step of `t` that the exploration does not see. -/
theorem explored_same {b : Bee} (hbees : σ'.bees = Function.update σ.bees t b)
    (hqueue : σ'.queue = σ.queue) (hcollected : σ'.collected = σ.collected)
    (hpushes : σ'.pushes = σ.pushes) (hb : activity b = activity (σ.bees t)) :
    explored σ' = explored σ := by
  have hactivity := explored_activity hbees
  rw [hb, show activity (σ.bees t) = (explored σ).activity t from rfl, Function.update_eq_self]
    at hactivity
  show State.mk σ'.queue (explored σ').activity σ'.collected σ'.pushes = _
  rw [hactivity, hqueue, hcollected, hpushes]
  rfl

theorem explored_go {p : Pc} (hbees : σ'.bees = σ.go t p) (hqueue : σ'.queue = σ.queue)
    (hcollected : σ'.collected = σ.collected) (hpushes : σ'.pushes = σ.pushes)
    (hbranch : (σ.pc t).branch = none) (hp : p.branch = none) : explored σ' = explored σ := by
  refine explored_same hbees hqueue hcollected hpushes ?_
  rw [activity_of_branch hbranch, activity_of_branch hp]

/-- A step of `t` that is the step to `s` of the exploration. -/
theorem explored_seen {s : State (Fin args.beeAmount) Pos} {b : Bee}
    (hs : Exploration.Step (graph args) (explored σ) t s)
    (hbees : σ'.bees = Function.update σ.bees t b) (hqueue : s.queue = σ'.queue)
    (hactivity : s.activity = Function.update (explored σ).activity t (activity b))
    (hvisited : s.visited = σ'.collected) (hreports : s.reports = σ'.pushes) :
    ∃ t, Exploration.Step (graph args) (explored σ) t (explored σ') := by
  have hs' : s = explored σ' := by
    obtain ⟨queue, act, visited, reports⟩ := s
    simp only at hqueue hactivity hvisited hreports
    rw [← explored_activity hbees] at hactivity
    rw [hqueue, hactivity, hvisited, hreports]
    rfl
  exact ⟨t, hs' ▸ hs⟩

theorem explored_step {e : Event args.beeAmount} (h : Ok args σ) (hs : σ.step e = some σ') :
    explored σ' = explored σ ∨ ∃ t, Exploration.Step (graph args) (explored σ) t (explored σ') := by
  cases System.step_cases hs with
  | lockField hpc hfree => exact .inl (explored_same rfl rfl rfl rfl (activity_lockField hpc))
  | unlockField hpc => exact .inl (explored_same rfl rfl rfl rfl (activity_unlockField hpc))
  | lockQueue hpc hfree => exact .inl (explored_same rfl rfl rfl rfl (activity_lockQueue hpc))
  | unlockQueue hpc => exact .inl (explored_same rfl rfl rfl rfl (activity_unlockQueue hpc))
  | test hpc => exact .inl (explored_same rfl rfl rfl rfl (activity_at hpc).symm)
  | enterWorking hpc | enterCollecting hpc | noFood hpc | checkFresh hpc | leave hpc =>
    refine .inl (explored_same rfl rfl rfl rfl ?_)
    rw [activity_at hpc]
    rfl
  | @pop t q queue hpc hq =>
    have hstate := (h.bees t).state .working (congrArg Pc.branch hpc)
    have hidle : activity (σ.bees t) = .idle := by
      rw [activity_at hpc]
      simp only [activity, hstate]
    exact .inr (explored_seen (.take hidle hq) rfl rfl rfl rfl rfl)
  | @checkGone t hpc hgone =>
    have hcarrying := activity_carrying (h.bees t) (.inl hpc)
    exact .inr (explored_seen (.drop hcarrying ((done_iff h _).mpr hgone)) rfl rfl rfl rfl rfl)
  | @harvest t hpc =>
    have hcarrying := activity_carrying (h.bees t) (.inr hpc)
    exact .inr (explored_seen (.visit hcarrying (not_done_of_fresh h ((h.bees t).fresh hpc)))
      rfl rfl rfl rfl rfl)
  | lookFresh _ hpc hfresh =>
    exact .inr (explored_seen (.find (activity_looking hpc) (not_done_of_fresh h hfresh)) rfl rfl rfl rfl rfl)
  | lookGone _ hpc hgone =>
    exact .inr (explored_seen (.skip (activity_looking hpc) ((done_iff h _).mpr hgone)) rfl rfl rfl rfl rfl)
  | @lookEnd t i hpc hi =>
    have hexploring : activity (σ.bees t) = .exploring (σ.bees t).position [] := by
      rw [activity_at hpc, ← rest_of_le hi]
      rfl
    exact .inr (explored_seen (.finish hexploring) rfl rfl rfl rfl rfl)
  | @push t i hpc =>
    have hreporting : activity (σ.bees t) = .reporting (σ.bees t).position
        (neighbours (σ.bees t).position i) (rest (σ.bees t).position (i + 1)) := activity_at hpc
    exact .inr (explored_seen (.report hreporting) rfl rfl rfl rfl rfl)
  | completeBear => exact .inl rfl
  | completeCycle => exact .inl rfl
  | enterBear hpc | exitBear hpc | decideSerial hpc | decide hpc | setAll hpc | lose hpc | survive hpc
  | destroy hpc | enterCycle hpc | exitCycle hpc =>
    exact .inl (explored_go rfl rfl rfl rfl (congrArg Pc.branch hpc) rfl)

end OsExercises.Beehive
