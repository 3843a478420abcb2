import Mathlib.Data.Sym.Sym2
import OsExercises.Lib.Channel

/-!
# Exploring a graph from a shared queue

The threads `T` take vertices out of a queue. Who carries an open vertex that is not visited yet visits
it, then looks at its neighbours one after the other, and sends each one that is not done at that
moment. Looking at a neighbour and sending it are two steps, so a vertex can be in the queue twice.

`Sound`: the vertices in the queue are open, and each is visited at most once. `Frontier`: a neighbour
of a visited vertex is done, in the queue, carried, or still to be looked at by the thread that visited
the vertex. `OneWay`: of two neighbours at most one is reported by the other, and at most once, because
the one that is reported was not visited then.
-/

namespace OsExercises.Exploration

structure Graph (V : Type*) where
  neighbours : V → List V
  /-- The vertex is never visited. -/
  closed : V → Bool

/-- What a thread does. `rest` are the neighbours of `v` that it has not looked at yet. -/
inductive Activity (V : Type*) where
  | idle
  | carrying (v : V)
  | exploring (v : V) (rest : List V)
  /-- About to send the neighbour `w` of `v`. -/
  | reporting (v w : V) (rest : List V)

/-- The vertex that the thread has visited, with each neighbour that it has not dealt with. -/
def Activity.todo {V : Type*} : Activity V → List (V × V)
  | .idle | .carrying _ => []
  | .exploring v rest => rest.map (v, ·)
  | .reporting v w rest => (w :: rest).map (v, ·)

structure State (T V : Type*) where
  queue : Channel T V
  activity : T → Activity V
  /-- The first one first. -/
  visited : List V
  /-- The vertices sent, each with the vertex whose neighbour it is, the first one first. -/
  reports : List (V × V)

variable {T V : Type*}

def State.start (T : Type*) (v₀ : V) : State T V := ⟨Channel.empty.send v₀, fun _ => .idle, [], []⟩

def Done (G : Graph V) (s : State T V) (v : V) : Prop := G.closed v = true ∨ v ∈ s.visited

/-- What the thread `t` can do. -/
inductive Step [DecidableEq T] (G : Graph V) (s : State T V) (t : T) : State T V → Prop
  | take {v : V} {queue : Channel T V} (ht : s.activity t = .idle)
    (hq : s.queue.receive t = some (v, queue)) :
    Step G s t { s with queue := queue, activity := Function.update s.activity t (.carrying v) }
  | drop {v : V} (ht : s.activity t = .carrying v) (hv : Done G s v) :
    Step G s t { s with activity := Function.update s.activity t .idle }
  | visit {v : V} (ht : s.activity t = .carrying v) (hv : ¬ Done G s v) :
    Step G s t { s with
      activity := Function.update s.activity t (.exploring v (G.neighbours v))
      visited := s.visited ++ [v] }
  | skip {v w : V} {rest : List V} (ht : s.activity t = .exploring v (w :: rest)) (hw : Done G s w) :
    Step G s t { s with activity := Function.update s.activity t (.exploring v rest) }
  | find {v w : V} {rest : List V} (ht : s.activity t = .exploring v (w :: rest))
    (hw : ¬ Done G s w) :
    Step G s t { s with activity := Function.update s.activity t (.reporting v w rest) }
  | report {v w : V} {rest : List V} (ht : s.activity t = .reporting v w rest) :
    Step G s t { s with
      queue := s.queue.send w
      activity := Function.update s.activity t (.exploring v rest)
      reports := s.reports ++ [(v, w)] }
  | finish {v : V} (ht : s.activity t = .exploring v []) :
    Step G s t { s with activity := Function.update s.activity t .idle }

variable {G : Graph V} {s s' : State T V} {t u : T} {v w : V}

/-! ### Vertices -/

/-- What holds of the vertices in the hands of a thread. -/
def Busy (G : Graph V) (s : State T V) : Activity V → Prop
  | .idle => True
  | .carrying v => v ∈ s.queue.sent
  | .exploring v rest => v ∈ s.visited ∧ rest <:+ G.neighbours v
  | .reporting v w rest => v ∈ s.visited ∧ w :: rest <:+ G.neighbours v ∧ G.closed w = false

structure Sound (G : Graph V) (s : State T V) : Prop where
  nodup : s.visited.Nodup
  visited : ∀ v ∈ s.visited, G.closed v = false
  sent : ∀ v ∈ s.queue.sent, G.closed v = false
  busy : ∀ t, Busy G s (s.activity t)

theorem not_done : ¬ Done G s v ↔ G.closed v = false ∧ v ∉ s.visited := by
  simp [Done]

namespace Sound

theorem start (h : G.closed v = false) : Sound G (State.start T v) := by
  refine ⟨List.nodup_nil, nofun, ?_, fun _ => trivial⟩
  intro w hw
  obtain rfl : w = v := by simpa [State.start, Channel.send, Channel.empty] using hw
  exact h

theorem todo_visited (h : Sound G s) (he : (v, w) ∈ (s.activity t).todo) :
    v ∈ s.visited ∧ w ∈ G.neighbours v := by
  have hbusy := h.busy t
  revert he hbusy
  cases s.activity t with
  | idle => intro he; cases he
  | carrying x => intro he; cases he
  | exploring x rest =>
    rintro he ⟨hx, hrest⟩
    obtain ⟨y, hy, heq⟩ := List.mem_map.mp he
    cases heq
    exact ⟨hx, hrest.subset hy⟩
  | reporting x y rest =>
    rintro he ⟨hx, hrest, -⟩
    obtain ⟨z, hz, heq⟩ := List.mem_map.mp he
    cases heq
    exact ⟨hx, hrest.subset hz⟩

theorem mono {a : Activity V} (h : Busy G s a) (hvisited : s.visited ⊆ s'.visited)
    (hsent : s.queue.sent ⊆ s'.queue.sent) : Busy G s' a := by
  cases a with
  | idle => trivial
  | carrying v => exact hsent h
  | exploring v rest => exact ⟨hvisited h.1, h.2⟩
  | reporting v w rest => exact ⟨hvisited h.1, h.2⟩

variable [DecidableEq T]

theorem busy_update {a : Activity V} (h : Sound G s) (hvisited : s.visited ⊆ s'.visited)
    (hsent : s.queue.sent ⊆ s'.queue.sent) (hactivity : s'.activity = Function.update s.activity t a)
    (ha : Busy G s' a) (u : T) : Busy G s' (s'.activity u) := by
  rw [hactivity]
  exact (Function.forall_update_iff ..).mpr ⟨ha, fun u _ => mono (h.busy u) hvisited hsent⟩ u

theorem step (h : Sound G s) (hs : Step G s t s') : Sound G s' := by
  have hbusy := h.busy t
  cases hs with
  | @take v queue ht hq =>
    obtain ⟨hqueue, hsent, -⟩ := Channel.receive_cases hq
    have hv : v ∈ queue.sent := by
      rw [hsent, s.queue.fifo, hqueue]
      simp
    refine ⟨h.nodup, h.visited, ?_, h.busy_update (List.Subset.refl _) ?_ rfl hv⟩
    · rw [hsent]
      exact h.sent
    · rw [hsent]
      exact List.Subset.refl _
  | drop ht hv =>
    exact ⟨h.nodup, h.visited, h.sent,
      h.busy_update (List.Subset.refl _) (List.Subset.refl _) rfl trivial⟩
  | @visit v ht hv =>
    obtain ⟨hopen, hnew⟩ := not_done.mp hv
    refine ⟨?_, ?_, h.sent, h.busy_update (List.subset_append_left ..) (List.Subset.refl _) rfl ?_⟩
    · rw [← List.concat_eq_append]
      exact h.nodup.concat hnew
    · intro x hx
      rcases List.mem_append.mp hx with hx | hx
      · exact h.visited x hx
      · rw [List.mem_singleton.mp hx]
        exact hopen
    · exact ⟨List.mem_append_right _ (List.mem_singleton_self v), List.suffix_rfl⟩
  | skip ht hw =>
    rw [ht] at hbusy
    exact ⟨h.nodup, h.visited, h.sent, h.busy_update (List.Subset.refl _) (List.Subset.refl _) rfl
      ⟨hbusy.1, (List.suffix_cons ..).trans hbusy.2⟩⟩
  | find ht hw =>
    rw [ht] at hbusy
    exact ⟨h.nodup, h.visited, h.sent, h.busy_update (List.Subset.refl _) (List.Subset.refl _) rfl
      ⟨hbusy.1, hbusy.2, (not_done.mp hw).1⟩⟩
  | @report v w rest ht =>
    rw [ht] at hbusy
    obtain ⟨hv, hrest, hopen⟩ := hbusy
    refine ⟨h.nodup, h.visited, ?_, h.busy_update (List.Subset.refl _) (List.subset_append_left ..)
      rfl ⟨hv, (List.suffix_cons ..).trans hrest⟩⟩
    intro x hx
    rcases List.mem_append.mp hx with hx | hx
    · exact h.sent x hx
    · rw [List.mem_singleton.mp hx]
      exact hopen
  | finish ht =>
    exact ⟨h.nodup, h.visited, h.sent,
      h.busy_update (List.Subset.refl _) (List.Subset.refl _) rfl trivial⟩

end Sound

/-! ### The frontier -/

/-- `v` is in the queue or carried. -/
def Pending (s : State T V) (v : V) : Prop :=
  v ∈ s.queue.queue ∨ ∃ t, s.activity t = .carrying v

def Covered (G : Graph V) (s : State T V) (v : V) : Prop := Done G s v ∨ Pending s v

structure Frontier (G : Graph V) (v₀ : V) (s : State T V) : Prop where
  seed : Covered G s v₀
  neighbours : ∀ v ∈ s.visited, ∀ w ∈ G.neighbours v,
    Covered G s w ∨ ∃ t, (v, w) ∈ (s.activity t).todo

theorem Covered.of_activity (h : Covered G s v) (hqueue : s.queue.queue ⊆ s'.queue.queue)
    (hvisited : s.visited ⊆ s'.visited)
    (hactivity : ∀ t, s.activity t = .carrying v → Covered G s' v) : Covered G s' v := by
  rcases h with (hclosed | hv) | hv | ⟨t, ht⟩
  · exact .inl (.inl hclosed)
  · exact .inl (.inr (hvisited hv))
  · exact .inr (.inl (hqueue hv))
  · exact hactivity t ht

variable [DecidableEq T]

/-- The other threads go on carrying what they carry. -/
theorem Covered.of_update {a : Activity V} (h : Covered G s v)
    (hactivity : s'.activity = Function.update s.activity t a)
    (hqueue : s.queue.queue ⊆ s'.queue.queue) (hvisited : s.visited ⊆ s'.visited)
    (ht : s.activity t = .carrying v → Covered G s' v) : Covered G s' v := by
  refine h.of_activity hqueue hvisited fun u hu => ?_
  by_cases hut : u = t
  · exact ht (hut ▸ hu)
  · exact .inr (.inr ⟨u, by rw [hactivity, Function.update_of_ne hut]; exact hu⟩)

theorem Covered.step (h : Covered G s v) (hs : Step G s t s') : Covered G s' v := by
  cases hs with
  | @take x queue ht hq =>
    obtain ⟨hqueue, -⟩ := Channel.receive_cases hq
    rcases h with hv | hv | ⟨u, hu⟩
    · exact .inl hv
    · rw [hqueue] at hv
      rcases List.mem_cons.mp hv with rfl | hv
      · exact .inr (.inr ⟨t, Function.update_self ..⟩)
      · exact .inr (.inl hv)
    · have hut : u ≠ t := by
        rintro rfl
        cases ht.symm.trans hu
      exact .inr (.inr ⟨u, (Function.update_of_ne hut ..).trans hu⟩)
  | @drop x ht hx =>
    refine h.of_update rfl (List.Subset.refl _) (List.Subset.refl _) fun hv => ?_
    cases ht.symm.trans hv
    exact .inl hx
  | @visit x ht hx =>
    refine h.of_update rfl (List.Subset.refl _) (List.subset_append_left ..) fun hv => ?_
    cases ht.symm.trans hv
    exact .inl (.inr (List.mem_append_right _ (List.mem_singleton_self v)))
  | skip ht hw =>
    refine h.of_update rfl (List.Subset.refl _) (List.Subset.refl _) fun hv => ?_
    cases ht.symm.trans hv
  | find ht hw =>
    refine h.of_update rfl (List.Subset.refl _) (List.Subset.refl _) fun hv => ?_
    cases ht.symm.trans hv
  | report ht =>
    refine h.of_update rfl (List.subset_append_left ..) (List.Subset.refl _) fun hv => ?_
    cases ht.symm.trans hv
  | finish ht =>
    refine h.of_update rfl (List.Subset.refl _) (List.Subset.refl _) fun hv => ?_
    cases ht.symm.trans hv

/-- A neighbour that is still to be looked at is dealt with, or stays so. -/
theorem todo_step (he : (v, w) ∈ (s.activity u).todo) (hs : Step G s t s') :
    Covered G s' w ∨ ∃ u, (v, w) ∈ (s'.activity u).todo := by
  have hother : ∀ a, u ≠ t → (v, w) ∈ (Function.update s.activity t a u).todo := by
    intro a hut
    rw [Function.update_of_ne hut]
    exact he
  have hself : ∀ a, (v, w) ∈ a.todo → (v, w) ∈ (Function.update s.activity t a t).todo := by
    intro a ha
    rw [Function.update_self]
    exact ha
  by_cases hut : u = t
  · subst hut
    cases hs with
    | take ht hq => rw [ht] at he; cases he
    | drop ht hx => rw [ht] at he; cases he
    | visit ht hx => rw [ht] at he; cases he
    | skip ht hx =>
      rw [ht] at he
      rcases List.mem_cons.mp he with heq | he
      · cases heq
        exact .inl (.inl hx)
      · exact .inr ⟨u, hself _ he⟩
    | find ht hx =>
      rw [ht] at he
      exact .inr ⟨u, hself _ he⟩
    | report ht =>
      rw [ht] at he
      rcases List.mem_cons.mp he with heq | he
      · cases heq
        exact .inl (.inr (.inl (List.mem_append_right _ (List.mem_singleton_self w))))
      · exact .inr ⟨u, hself _ he⟩
    | finish ht => rw [ht] at he; cases he
  · cases hs <;> exact .inr ⟨u, hother _ hut⟩

namespace Frontier

variable {v₀ : V}

omit [DecidableEq T] in
theorem start : Frontier G v₀ (State.start T v₀) := by
  refine ⟨.inr (.inl ?_), nofun⟩
  exact List.mem_append_right _ (List.mem_singleton_self v₀)

theorem step (h : Frontier G v₀ s) (hs : Step G s t s') : Frontier G v₀ s' := by
  refine ⟨h.seed.step hs, ?_⟩
  intro v hv w hw
  by_cases hold : v ∈ s.visited
  · rcases h.neighbours v hold w hw with hcovered | ⟨u, hu⟩
    · exact .inl (hcovered.step hs)
    · exact todo_step hu hs
  · cases hs
    case visit x ht hx =>
      rcases List.mem_append.mp hv with hv | hv
      · exact absurd hv hold
      · obtain rfl := List.mem_singleton.mp hv
        refine .inr ⟨t, ?_⟩
        show (v, w) ∈ (Function.update s.activity t _ t).todo
        rw [Function.update_self]
        exact List.mem_map.mpr ⟨w, hw, rfl⟩
    all_goals exact absurd hv hold

omit [DecidableEq T] in
/-- When no thread is between visiting a vertex and looking at its last neighbour. -/
theorem covered (h : Frontier G v₀ s) (hrest : ∀ t, (s.activity t).todo = []) (hv : v ∈ s.visited)
    (hw : w ∈ G.neighbours v) : Covered G s w := by
  rcases h.neighbours v hv w hw with hcovered | ⟨t, ht⟩
  · exact hcovered
  · rw [hrest t] at ht
    cases ht

omit [DecidableEq T] in
/-- When nothing is left to do, everything that can be reached is done. -/
theorem done (h : Frontier G v₀ s) (hrest : ∀ t, s.activity t = .idle) (hqueue : s.queue.queue = []) :
    Done G s v₀ ∧ ∀ v ∈ s.visited, ∀ w ∈ G.neighbours v, Done G s w := by
  have hdone : ∀ v, Covered G s v → Done G s v := by
    rintro v (hv | hv | ⟨t, ht⟩)
    · exact hv
    · rw [hqueue] at hv
      cases hv
    · cases (hrest t).symm.trans ht
  refine ⟨hdone v₀ h.seed, ?_⟩
  intro v hv w hw
  exact hdone w (h.covered (fun t => by rw [hrest t]; rfl) hv hw)

end Frontier

/-! ### Reports -/

/-- `w` has been reported as a neighbour of `v`, or is about to be. -/
def Claimed (s : State T V) (e : V × V) : Prop :=
  e ∈ s.reports ∨ ∃ t rest, s.activity t = .reporting e.1 e.2 rest

structure OneWay (G : Graph V) (v₀ : V) (s : State T V) : Prop where
  sent : s.queue.sent = v₀ :: s.reports.map Prod.snd
  /-- Only the thread that visited a vertex looks at its neighbours. -/
  alone : ∀ t u e, e ∈ (s.activity t).todo → e ∈ (s.activity u).todo → t = u
  ahead : ∀ t, ∀ e ∈ (s.activity t).todo, e ∉ s.reports
  reported : ∀ e ∈ s.reports, e.1 ∈ s.visited ∧ e.2 ∈ G.neighbours e.1 ∧ G.closed e.2 = false
  oneWay : ∀ v w, Claimed s (v, w) → ¬ Claimed s (w, v)
  nodup : s.reports.Nodup

namespace OneWay

variable {v₀ : V}

omit [DecidableEq T] in
theorem start : OneWay G v₀ (State.start T v₀) := by
  refine ⟨rfl, nofun, nofun, nofun, ?_, List.nodup_nil⟩
  rintro v w (he | ⟨t, rest, ht⟩)
  · cases he
  · cases ht

omit [DecidableEq T] in
theorem claimed_visited (h : OneWay G v₀ s) (hsound : Sound G s) (he : Claimed s (v, w)) :
    v ∈ s.visited := by
  rcases he with he | ⟨t, rest, ht⟩
  · exact (h.reported _ he).1
  · have hbusy := hsound.busy t
    rw [ht] at hbusy
    exact hbusy.1

theorem todo_update_subset {a : Activity V} (ha : a.todo ⊆ (s.activity t).todo) (u : T) :
    (Function.update s.activity t a u).todo ⊆ (s.activity u).todo := by
  by_cases hut : u = t
  · subst hut
    rw [Function.update_self]
    exact ha
  · rw [Function.update_of_ne hut]
    exact List.Subset.refl _

/-- What is claimed after a step of `t` that was not claimed before. -/
theorem claimed_of_update {a : Activity V} {e : V × V}
    (hactivity : s'.activity = Function.update s.activity t a) (he : Claimed s' e) :
    e ∈ s'.reports ∨ Claimed s e ∨ ∃ rest, a = .reporting e.1 e.2 rest := by
  rcases he with he | ⟨u, rest, hu⟩
  · exact .inl he
  · rw [hactivity] at hu
    by_cases hut : u = t
    · subst hut
      rw [Function.update_self] at hu
      exact .inr (.inr ⟨rest, hu⟩)
    · rw [Function.update_of_ne hut] at hu
      exact .inr (.inl (.inr ⟨u, rest, hu⟩))

/-- A step after which `t` has nothing new to deal with and nothing new is claimed. -/
theorem moved {a : Activity V} (h : OneWay G v₀ s) (hsent : s'.queue.sent = s.queue.sent)
    (hactivity : s'.activity = Function.update s.activity t a) (hvisited : s'.visited = s.visited)
    (hreports : s'.reports = s.reports) (htodo : a.todo ⊆ (s.activity t).todo)
    (ha : ∀ v w rest, a ≠ .reporting v w rest) : OneWay G v₀ s' := by
  have hsub : ∀ u, (s'.activity u).todo ⊆ (s.activity u).todo := by
    rw [hactivity]
    exact todo_update_subset htodo
  have hclaimed : ∀ e, Claimed s' e → Claimed s e := by
    intro e he
    rcases claimed_of_update hactivity he with he | he | ⟨rest, he⟩
    · exact .inl (hreports ▸ he)
    · exact he
    · exact absurd he (ha _ _ _)
  refine ⟨by rw [hsent, hreports, h.sent], ?_, ?_, ?_, ?_, by rw [hreports]; exact h.nodup⟩
  · intro u u' e hu hu'
    exact h.alone u u' e (hsub u hu) (hsub u' hu')
  · intro u e he
    rw [hreports]
    exact h.ahead u e (hsub u he)
  · rw [hreports, hvisited]
    exact h.reported
  · intro v w hvw hwv
    exact h.oneWay v w (hclaimed _ hvw) (hclaimed _ hwv)

theorem visit (h : OneWay G v₀ s) (hsound : Sound G s) (hv : v ∉ s.visited) : OneWay G v₀ { s with
    activity := Function.update s.activity t (.exploring v (G.neighbours v))
    visited := s.visited ++ [v] } := by
  have hother : ∀ u e, e ∈ (s.activity u).todo →
      e ∉ (Activity.exploring v (G.neighbours v)).todo := by
    intro u e he hnew
    obtain ⟨w, -, rfl⟩ := List.mem_map.mp hnew
    exact hv (hsound.todo_visited he).1
  refine ⟨h.sent, ?_, ?_, ?_, ?_, h.nodup⟩
  · intro u u' e hu hu'
    by_cases hut : u = t <;> by_cases hut' : u' = t
    · exact hut.trans hut'.symm
    · subst hut
      simp only [Function.update_self, Function.update_of_ne hut'] at hu hu'
      exact absurd hu (hother u' e hu')
    · subst hut'
      simp only [Function.update_self, Function.update_of_ne hut] at hu hu'
      exact absurd hu' (hother u e hu)
    · simp only [Function.update_of_ne hut, Function.update_of_ne hut'] at hu hu'
      exact h.alone u u' e hu hu'
  · intro u e he
    by_cases hut : u = t
    · subst hut
      simp only [Function.update_self] at he
      obtain ⟨w, -, rfl⟩ := List.mem_map.mp he
      exact fun hreported => hv (h.reported _ hreported).1
    · simp only [Function.update_of_ne hut] at he
      exact h.ahead u e he
  · intro e he
    obtain ⟨hvisited, hedge⟩ := h.reported e he
    exact ⟨List.mem_append_left _ hvisited, hedge⟩
  · have hclaimed : ∀ e, Claimed { s with
        activity := Function.update s.activity t (.exploring v (G.neighbours v))
        visited := s.visited ++ [v] } e → Claimed s e := by
      intro e he
      rcases claimed_of_update rfl he with he | he | ⟨rest, he⟩
      · exact .inl he
      · exact he
      · cases he
    intro x y hxy hyx
    exact h.oneWay x y (hclaimed _ hxy) (hclaimed _ hyx)

theorem find {rest : List V} (h : OneWay G v₀ s) (hsound : Sound G s)
    (ht : s.activity t = .exploring v (w :: rest)) (hw : ¬ Done G s w) :
    OneWay G v₀ { s with activity := Function.update s.activity t (.reporting v w rest) } := by
  have hsub : ∀ u, (Function.update s.activity t (.reporting v w rest) u).todo ⊆
      (s.activity u).todo := by
    refine todo_update_subset ?_
    rw [ht]
    exact List.Subset.refl _
  -- the one new claim is on `w`, which is not visited, so nothing is claimed by `w`
  have hclaimed : ∀ e, Claimed { s with
      activity := Function.update s.activity t (.reporting v w rest) } e →
      Claimed s e ∨ e = (v, w) := by
    intro e he
    rcases claimed_of_update rfl he with he | he | ⟨rest, he⟩
    · exact .inl (.inl he)
    · exact .inl he
    · cases he
      exact .inr rfl
  have hnew : w ∉ s.visited := (not_done.mp hw).2
  have hv : v ∈ s.visited := by
    have hbusy := hsound.busy t
    rw [ht] at hbusy
    exact hbusy.1
  refine ⟨h.sent, ?_, ?_, h.reported, ?_, h.nodup⟩
  · intro u u' e hu hu'
    exact h.alone u u' e (hsub u hu) (hsub u' hu')
  · intro u e he
    exact h.ahead u e (hsub u he)
  · intro x y hxy hyx
    rcases hclaimed _ hxy with hxy | hxy <;> rcases hclaimed _ hyx with hyx | hyx
    · exact h.oneWay x y hxy hyx
    · cases hyx
      exact hnew (h.claimed_visited hsound hxy)
    · cases hxy
      exact hnew (h.claimed_visited hsound hyx)
    · cases hxy
      cases hyx
      exact hnew hv

theorem report {rest : List V} (h : OneWay G v₀ s) (hsound : Sound G s)
    (hnodup : (G.neighbours v).Nodup) (ht : s.activity t = .reporting v w rest) :
    OneWay G v₀ { s with
      queue := s.queue.send w
      activity := Function.update s.activity t (.exploring v rest)
      reports := s.reports ++ [(v, w)] } := by
  have hbusy := hsound.busy t
  rw [ht] at hbusy
  obtain ⟨hv, hrest, hopen⟩ := hbusy
  have hmine : (v, w) ∈ (s.activity t).todo := by
    rw [ht]
    exact List.mem_cons_self
  have hsub : ∀ u, (Function.update s.activity t (.exploring v rest) u).todo ⊆
      (s.activity u).todo := by
    refine todo_update_subset ?_
    rw [ht]
    exact List.subset_cons_self ..
  refine ⟨?_, ?_, ?_, ?_, ?_, ?_⟩
  · show s.queue.sent ++ [w] = _
    rw [h.sent, List.map_append]
    rfl
  · intro u u' e hu hu'
    exact h.alone u u' e (hsub u hu) (hsub u' hu')
  · intro u e he hreported
    rcases List.mem_append.mp hreported with hreported | hreported
    · exact h.ahead u e (hsub u he) hreported
    · obtain rfl := List.mem_singleton.mp hreported
      obtain rfl := h.alone u t _ (hsub u he) hmine
      simp only [Function.update_self] at he
      obtain ⟨y, hy, heq⟩ := List.mem_map.mp he
      cases heq
      exact (List.nodup_cons.mp (hnodup.sublist hrest.sublist)).1 hy
  · intro e he
    rcases List.mem_append.mp he with he | he
    · exact h.reported e he
    · obtain rfl := List.mem_singleton.mp he
      exact ⟨hv, hrest.subset List.mem_cons_self, hopen⟩
  · have hclaimed : ∀ e, Claimed { s with
        queue := s.queue.send w
        activity := Function.update s.activity t (.exploring v rest)
        reports := s.reports ++ [(v, w)] } e → Claimed s e := by
      intro e he
      rcases claimed_of_update rfl he with he | he | ⟨rest, he⟩
      · rcases List.mem_append.mp he with he | he
        · exact .inl he
        · obtain rfl := List.mem_singleton.mp he
          exact .inr ⟨t, _, ht⟩
      · exact he
      · cases he
    intro x y hxy hyx
    exact h.oneWay x y (hclaimed _ hxy) (hclaimed _ hyx)
  · rw [← List.concat_eq_append]
    exact h.nodup.concat (h.ahead t _ hmine)

theorem step (h : OneWay G v₀ s) (hsound : Sound G s) (hnodup : ∀ v, (G.neighbours v).Nodup)
    (hs : Step G s t s') : OneWay G v₀ s' := by
  cases hs with
  | take ht hq =>
    exact h.moved (Channel.receive_cases hq).2.1 rfl rfl rfl (List.nil_subset _) nofun
  | drop ht hv => exact h.moved rfl rfl rfl rfl (List.nil_subset _) nofun
  | visit ht hv => exact h.visit hsound (not_done.mp hv).2
  | skip ht hw =>
    refine h.moved rfl rfl rfl rfl ?_ nofun
    rw [ht]
    exact List.subset_cons_self ..
  | find ht hw => exact h.find hsound ht hw
  | @report v _ _ ht => exact h.report hsound (hnodup v) ht
  | finish ht => exact h.moved rfl rfl rfl rfl (List.nil_subset _) nofun

omit [DecidableEq T] in
/-- Every unordered pair is reported at most once. -/
theorem nodup_sym2 (h : OneWay G v₀ s) : (s.reports.map fun e => s(e.1, e.2)).Nodup := by
  refine h.nodup.map_on ?_
  rintro ⟨v, w⟩ he ⟨v', w'⟩ he' heq
  rcases Sym2.eq_iff.mp heq with ⟨hv, hw⟩ | ⟨hv, hw⟩
  · exact Prod.ext hv hw
  · have hv : v = w' := hv
    have hw : w = v' := hw
    subst hv hw
    exact absurd (.inl he') (h.oneWay v w (.inl he))

omit [DecidableEq T] in
theorem count_add_count_le [DecidableEq V] (h : OneWay G v₀ s) (v w : V) :
    s.reports.count (v, w) + s.reports.count (w, v) ≤ 1 := by
  have hle := List.nodup_iff_count_le_one.mp h.nodup
  by_cases hvw : (v, w) ∈ s.reports
  · have hzero : s.reports.count (w, v) = 0 :=
      List.count_eq_zero.mpr fun hwv => h.oneWay v w (.inl hvw) (.inl hwv)
    have := hle (v, w)
    omega
  · have hzero : s.reports.count (v, w) = 0 := List.count_eq_zero.mpr hvw
    have := hle (w, v)
    omega

end OneWay

/-! ### Runs -/

structure Inv (G : Graph V) (v₀ : V) (s : State T V) : Prop where
  sound : Sound G s
  frontier : Frontier G v₀ s
  oneWay : OneWay G v₀ s

namespace Inv

variable {v₀ : V}

omit [DecidableEq T] in
theorem start (h : G.closed v₀ = false) : Inv G v₀ (State.start T v₀) :=
  ⟨.start h, .start, .start⟩

theorem step (h : Inv G v₀ s) (hnodup : ∀ v, (G.neighbours v).Nodup) (hs : Step G s t s') :
    Inv G v₀ s' :=
  ⟨h.sound.step hs, h.frontier.step hs, h.oneWay.step h.sound hnodup hs⟩

end Inv
end OsExercises.Exploration
