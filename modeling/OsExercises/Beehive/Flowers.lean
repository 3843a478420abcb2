import OsExercises.Beehive.Harvest

/-!
# What becomes of the flowers

In every run of the beehive: a fresh flower next to a harvested one is in the queue, carried, or still to
be looked at; each flower is harvested at most once; and of two flowers that share a side at most one is
pushed because of the other, and at most once.
-/

namespace OsExercises.Beehive
open CyclicBarrier Grid Transition

variable {args : Args} {σ σ' : System args.beeAmount} {r₁ r₂ : Nat} {uninit : Fin args.beeAmount → Pos}
  {events : List (Event args.beeAmount)} {p₀ : Pos}

def startPos (args : Args) (r₁ r₂ : Nat) : Pos := fieldRandomPos (fieldInit args.width args.height) r₁ r₂

theorem startPos_inside (args : Args) (r₁ r₂ : Nat) :
    Inside args.width args.height (startPos args r₁ r₂) :=
  @inside_fieldRandomPos (fieldInit args.width args.height) args.width_pos args.height_pos r₁ r₂

theorem carried_of_pending {p : Pos} (hp : Exploration.Pending (explored σ) p) :
    p ∈ σ.queue.queue ∨ ∃ t, (σ.bees t).state = .collecting ∧ (σ.bees t).position = p := by
  rcases hp with hp | ⟨t, ht⟩
  · exact .inl hp
  · exact .inr ⟨t, activity_eq_carrying ht⟩

structure Inv (args : Args) (p₀ : Pos) (σ : System args.beeAmount) : Prop where
  ok : Ok args σ
  exploration : Exploration.Inv (graph args) p₀ (explored σ)

namespace Inv

theorem start (r₁ r₂ : Nat) (uninit : Fin args.beeAmount → Pos) :
    Inv args (startPos args r₁ r₂) (System.start args r₁ r₂ uninit) := by
  refine ⟨.start r₁ r₂ uninit, ?_⟩
  exact .start (graph_closed_eq_false.mpr (startPos_inside args r₁ r₂))

theorem step {e : Event args.beeAmount} (h : Inv args p₀ σ) (hs : σ.step e = some σ') :
    Inv args p₀ σ' := by
  refine ⟨h.ok.step hs, ?_⟩
  rcases explored_step h.ok hs with hsame | ⟨t, hstep⟩
  · rw [hsame]
    exact h.exploration
  · exact h.exploration.step nodup_graph_neighbours hstep

theorem of_run (hr : run System.step (System.start args r₁ r₂ uninit) events = some σ) :
    Inv args (startPos args r₁ r₂) σ :=
  run_inv (fun _ _ _ h hs => h.step hs) (start r₁ r₂ uninit) hr

/-! ### The frontier -/

theorem covered_of_adj (h : Inv args p₀ σ) (hpc : ∀ t, (σ.pc t).branch = none) {p q : Pos}
    (hp : fieldIsHarvested σ.field p.x p.y = false) (hq : q ∈ σ.collected) (hadj : Adj p q) :
    p ∈ σ.queue.queue ∨ ∃ t, (σ.bees t).state = .collecting ∧ (σ.bees t).position = p := by
  have hrest : ∀ t, ((explored σ).activity t).todo = [] := by
    intro t
    rw [show (explored σ).activity t = activity (σ.bees t) from rfl, activity_of_branch (hpc t)]
    cases (σ.bees t).state <;> rfl
  rcases h.exploration.frontier.covered hrest hq (mem_graph_neighbours.mpr hadj.symm) with hdone | hpending
  · exact absurd hdone (not_done_of_fresh h.ok hp)
  · exact carried_of_pending hpending

theorem harvested_of_idle (h : Inv args p₀ σ) (hp₀ : Inside args.width args.height p₀)
    (hqueue : σ.queue.queue = []) (hidle : ∀ t, (σ.bees t).state = .working) {p : Pos}
    (hp : Inside args.width args.height p) : p ∈ σ.collected := by
  obtain ⟨hseed, hnext⟩ := h.exploration.frontier.done
    (fun t => activity_of_working (h.ok.bees t) (hidle t)) hqueue
  have hcollected : ∀ q, Inside args.width args.height q →
      Exploration.Done (graph args) (explored σ) q → q ∈ σ.collected := by
    rintro q hq (hclosed | hvisited)
    · rw [graph_closed_eq_false.mpr hq] at hclosed
      cases hclosed
    · exact hvisited
  refine connected (S := (· ∈ σ.collected)) hp₀ (hcollected p₀ hp₀ hseed) ?_ hp
  intro q q' hq hq' hadj hmem
  exact hcollected q' hq' (hnext q hmem q' (mem_graph_neighbours.mpr hadj))

end Inv

/-- No fresh flower is forgotten. -/
structure NoneStranded (args : Args) (σ : System args.beeAmount) : Prop where
  /-- At the end of a cycle, with all bees at `barrier_bear`. -/
  boundary : (∀ t, σ.pc t = .inBear) → ∀ p q, fieldIsHarvested σ.field p.x p.y = false →
    Inside args.width args.height q → fieldIsHarvested σ.field q.x q.y = true → Adj p q →
    p ∈ σ.queue.queue ∨ ∃ t, (σ.bees t).state = .collecting ∧ (σ.bees t).position = p
  idle : σ.queue.queue = [] → (∀ t, (σ.bees t).state = .working) → fieldAllIsHarvested σ.field = true

theorem noneStranded (args : Args) (r₁ r₂ : Nat) (uninit : Fin args.beeAmount → Pos)
    (events : List (Event args.beeAmount)) (σ : System args.beeAmount)
    (hr : run System.step (System.start args r₁ r₂ uninit) events = some σ) : NoneStranded args σ := by
  have h := Inv.of_run hr
  constructor
  case boundary =>
    intro hpc p q hp hq hharvested hadj
    refine h.covered_of_adj (fun t => congrArg Pc.branch (hpc t)) hp ?_ hadj
    by_contra hnot
    rw [(h.ok.fresh_iff q).mpr ⟨hq, hnot⟩] at hharvested
    cases hharvested
  case idle =>
    intro hqueue hidle
    rw [fieldAllIsHarvested_iff]
    intro p hp
    rw [h.ok.inside_iff] at hp
    exact ((h.ok.collected p).mp (h.harvested_of_idle (startPos_inside args r₁ r₂) hqueue hidle hp)).2

/-- Two flowers and `n + 1` bees. -/
def smallArgs (n : Nat) : Args := ⟨2, 1, n + 1, by decide, by decide, Nat.succ_pos n⟩

def works {n : Nat} (t : Fin n) (k : Nat) : List (Event n) := List.replicate k (.work t)

/-- Bee `a` is sent to flower `(0, 0)` in the first cycle and harvests it in the second one, while bee `b`
gets no food and then what `a` reports. -/
def twoCycles (a b : Fin 2) : List (Event 2) :=
  works a 7 ++ works b 7 ++ .bear a :: works a 5 ++ .fight a 5 0 :: works a 1 ++ works b 3 ++
  .newCycle b :: works b 4 ++ works a 19 ++ works b 4

/-- Flower `(1, 0)` is what bee `b` is sent to at the end of the second cycle. -/
theorem noneStranded_twoCycles : ∃ σ,
    run System.step (System.start (smallArgs 1) 0 0 fun _ => ⟨0, 0⟩) (twoCycles 0 1) = some σ ∧
    NoneStranded (smallArgs 1) σ ∧ (⟨1, 0⟩ ∈ σ.queue.queue ∨
      ∃ t, (σ.bees t).state = .collecting ∧ (σ.bees t).position = ⟨1, 0⟩) := by
  have hrun : (run System.step (System.start (smallArgs 1) 0 0 fun _ => ⟨0, 0⟩) (twoCycles 0 1)).map
      (fun σ => (List.ofFn σ.pc, fieldIsHarvested σ.field 0 0, fieldIsHarvested σ.field 1 0)) =
      some ([.inBear, .inBear], true, false) := by decide +kernel
  obtain ⟨σ, hr, hσ⟩ := Option.map_eq_some_iff.mp hrun
  obtain ⟨hpcs, hσ⟩ := Prod.mk.inj hσ
  obtain ⟨hharvested, hfresh⟩ := Prod.mk.inj hσ
  have h := noneStranded (smallArgs 1) 0 0 (fun _ => ⟨0, 0⟩) (twoCycles 0 1) σ hr
  have hboundary : ∀ t, σ.pc t = .inBear := by
    intro t
    have hmem : σ.pc t ∈ List.ofFn σ.pc := List.mem_ofFn.mpr ⟨t, rfl⟩
    rw [hpcs] at hmem
    simpa using hmem
  exact ⟨σ, hr, h, h.boundary hboundary ⟨1, 0⟩ ⟨0, 0⟩ hfresh (by decide) hharvested (.inl ⟨rfl, .inr rfl⟩)⟩

/-! ### Each flower once -/

/-- A step harvests at most one flower. -/
theorem field_step {n : Nat} {σ σ' : System n} {e : Event n} (hs : σ.step e = some σ') :
    σ'.field = σ.field ∨ ∃ p : Pos, σ'.field = fieldHarvest σ.field p.x p.y := by
  cases System.step_cases hs with
  | @harvest t hpc => exact .inr ⟨(σ.bees t).position, rfl⟩
  | _ => exact .inl rfl

theorem isHarvested_step {n : Nat} {σ σ' : System n} {e : Event n} {p : Pos}
    (hp : fieldIsHarvested σ.field p.x p.y = true) (hs : σ.step e = some σ') :
    fieldIsHarvested σ'.field p.x p.y = true := by
  rcases field_step hs with hfield | ⟨q, hfield⟩ <;> rw [hfield]
  · exact hp
  · exact fieldHarvest_isHarvested hp

/-- What a collecting bee carries was in the queue. -/
def CarriesSent {n : Nat} (σ : System n) : Prop :=
  ∀ t, (σ.bees t).state = .collecting → (σ.bees t).position ∈ σ.queue.sent

theorem CarriesSent.of_update {n : Nat} {σ σ' : System n} {t : Fin n} {b : Bee} (h : CarriesSent σ)
    (hsent : σ.queue.sent ⊆ σ'.queue.sent) (hbees : σ'.bees = Function.update σ.bees t b)
    (hb : b.state = .collecting → b.position ∈ σ'.queue.sent) : CarriesSent σ' := by
  unfold CarriesSent
  rw [hbees]
  rw [Function.forall_update_iff σ.bees
    (p := fun _ b => b.state = .collecting → b.position ∈ σ'.queue.sent)]
  exact ⟨hb, fun u _ hu => hsent (h u hu)⟩

theorem CarriesSent.step {n : Nat} {σ σ' : System n} {e : Event n} (h : CarriesSent σ)
    (hs : σ.step e = some σ') : CarriesSent σ' := by
  cases System.step_cases hs with
  | @pop t q queue hpc hq =>
    obtain ⟨hqueue, hsent, -⟩ := Channel.receive_cases hq
    refine h.of_update (hsent ▸ List.Subset.refl _) rfl fun _ => ?_
    show q ∈ queue.sent
    rw [hsent, σ.queue.fifo, hqueue]
    simp
  | @push t i hpc =>
    exact h.of_update (List.subset_append_left ..) rfl fun ht => List.mem_append_left _ (h t ht)
  | leave hpc => exact h.of_update (List.Subset.refl _) rfl nofun
  | completeBear => exact h
  | completeCycle => exact h
  | _ => exact h.of_update (List.Subset.refl _) rfl (h _)

structure HarvestedOnce (args : Args) (σ : System args.beeAmount) : Prop where
  queued : ∀ p ∈ σ.queue.sent, Inside args.width args.height p
  carried : ∀ t, (σ.bees t).state = .collecting → Inside args.width args.height (σ.bees t).position
  once : σ.collected.Nodup
  stays : ∀ events τ, run System.step σ events = some τ →
    ∀ p : Pos, fieldIsHarvested σ.field p.x p.y = true → fieldIsHarvested τ.field p.x p.y = true
  /-- As a mathematical integer. -/
  count : (σ.field.harvested : Int) = σ.collected.length
  countInt : ∀ count, fieldCountHarvested σ.field = some count → count = σ.collected.length
  countDefined : args.width * args.height ≤ INT_MAX → (fieldCountHarvested σ.field).isSome

theorem Inv.harvested (h : Inv args p₀ σ) : σ.field.harvested = σ.collected.length := by
  refine Field.harvested_eq h.exploration.sound.nodup fun p => ?_
  rw [h.ok.collected, h.ok.inside_iff]

theorem harvestedOnce (args : Args) (r₁ r₂ : Nat) (uninit : Fin args.beeAmount → Pos)
    (events : List (Event args.beeAmount)) (σ : System args.beeAmount)
    (hr : run System.step (System.start args r₁ r₂ uninit) events = some σ) : HarvestedOnce args σ := by
  have h := Inv.of_run hr
  have hsent : ∀ p ∈ σ.queue.sent, Inside args.width args.height p := fun p hp =>
    graph_closed_eq_false.mp (h.exploration.sound.sent p hp)
  have hcarries : CarriesSent σ := run_inv (fun _ _ _ h hs => h.step hs) (by nofun) hr
  constructor
  case queued => exact hsent
  case carried => exact fun t ht => hsent _ (hcarries t ht)
  case once => exact h.exploration.sound.nodup
  case stays =>
    intro events τ hτ p hp
    exact run_inv (I := fun τ => fieldIsHarvested τ.field p.x p.y = true)
      (fun _ _ _ hp hs => isHarvested_step hp hs) hp hτ
  case count => rw [h.harvested]
  case countInt =>
    intro count hcount
    rw [fieldCountHarvested_eq, h.harvested] at hcount
    split at hcount <;> cases hcount
    rfl
  case countDefined =>
    intro hmax
    rw [fieldCountHarvested_eq, if_pos ?_]
    · rfl
    · have hle := σ.field.harvested_le
      rw [h.ok.width, h.ok.height] at hle
      exact le_trans (by exact_mod_cast hle) (args.area ▸ hmax)

theorem harvestedOnce_twoCycles : ∃ σ,
    run System.step (System.start (smallArgs 1) 0 0 fun _ => ⟨0, 0⟩) (twoCycles 0 1) = some σ ∧
    σ.collected = [⟨0, 0⟩] ∧ HarvestedOnce (smallArgs 1) σ := by
  have hrun : (run System.step (System.start (smallArgs 1) 0 0 fun _ => ⟨0, 0⟩) (twoCycles 0 1)).map
      (fun σ => σ.collected) = some [⟨0, 0⟩] := by decide +kernel
  obtain ⟨σ, hr, hσ⟩ := Option.map_eq_some_iff.mp hrun
  exact ⟨σ, hr, hσ, harvestedOnce (smallArgs 1) 0 0 (fun _ => ⟨0, 0⟩) (twoCycles 0 1) σ hr⟩

/-! ### At most one push for two neighbours -/

structure BoundedWork (args : Args) (p₀ : Pos) (σ : System args.beeAmount) : Prop where
  entries : σ.queue.sent = p₀ :: σ.pushes.map Prod.snd
  neighbours : ∀ e ∈ σ.pushes, Inside args.width args.height e.1 ∧ Inside args.width args.height e.2 ∧
    Adj e.1 e.2
  once : ∀ p q, σ.pushes.count (p, q) + σ.pushes.count (q, p) ≤ 1
  bound : (σ.queue.sent.length : Int) ≤
    1 + args.width * (args.height - 1) + args.height * (args.width - 1)
  flights : σ.queue.received.length ≤ σ.queue.sent.length

theorem boundedWork (args : Args) (r₁ r₂ : Nat) (uninit : Fin args.beeAmount → Pos)
    (events : List (Event args.beeAmount)) (σ : System args.beeAmount)
    (hr : run System.step (System.start args r₁ r₂ uninit) events = some σ) :
    BoundedWork args (startPos args r₁ r₂) σ := by
  have h := Inv.of_run hr
  have hsent : σ.queue.sent = startPos args r₁ r₂ :: σ.pushes.map Prod.snd := h.exploration.oneWay.sent
  have hneighbours : ∀ e ∈ σ.pushes, Inside args.width args.height e.1 ∧
      Inside args.width args.height e.2 ∧ Adj e.1 e.2 := by
    intro e he
    obtain ⟨hvisited, hedge, hopen⟩ := h.exploration.oneWay.reported e he
    exact ⟨graph_closed_eq_false.mp (h.exploration.sound.visited _ hvisited),
      graph_closed_eq_false.mp hopen, mem_graph_neighbours.mp hedge⟩
  constructor
  case entries => exact hsent
  case neighbours => exact hneighbours
  case once => exact h.exploration.oneWay.count_add_count_le
  case bound =>
    have hle := length_le_of_adj args.width_pos args.height_pos h.exploration.oneWay.nodup_sym2 hneighbours
    have hlength : ((explored σ).reports.length : Int) = σ.pushes.length := rfl
    rw [hsent, List.length_cons, List.length_map]
    push_cast
    omega
  case flights =>
    rw [σ.queue.fifo, List.length_append, List.length_map]
    exact Nat.le_add_right ..

theorem boundedWork_twoCycles : ∃ σ,
    run System.step (System.start (smallArgs 1) 0 0 fun _ => ⟨0, 0⟩) (twoCycles 0 1) = some σ ∧
    σ.pushes = [(⟨0, 0⟩, ⟨1, 0⟩)] ∧ BoundedWork (smallArgs 1) ⟨0, 0⟩ σ := by
  have hrun : (run System.step (System.start (smallArgs 1) 0 0 fun _ => ⟨0, 0⟩) (twoCycles 0 1)).map
      (fun σ => σ.pushes) = some [(⟨0, 0⟩, ⟨1, 0⟩)] := by decide +kernel
  obtain ⟨σ, hr, hσ⟩ := Option.map_eq_some_iff.mp hrun
  exact ⟨σ, hr, hσ, boundedWork (smallArgs 1) 0 0 (fun _ => ⟨0, 0⟩) (twoCycles 0 1) σ hr⟩

end OsExercises.Beehive
