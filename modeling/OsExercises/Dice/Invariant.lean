import OsExercises.Dice.Model

/-!
# The two phases of a round

Between the completion of the first barrier and that of the second all threads test `active_players`
and roll or leave (`Rolling`); between the completion of the second and that of the next first barrier
the serial thread eliminates and the others do nothing but call the barrier again (`Eliminating`). A
state is in one of the two phases, and a thread at a barrier of the other phase has been let go from it
(`Inv.step`). The proofs use only what every refinement of the barrier guarantees.
-/

namespace OsExercises.Dice
open CyclicBarrier

variable {n : Nat} {M : Machine (Fin n)}

/-- Whether `t` is the serial thread `x`. -/
def isSerial (x : Option (Fin n)) (t : Fin n) : Option Bool := x.map fun y => t = y

theorem isSerial_eq_true {x : Option (Fin n)} {t : Fin n} (h : isSerial x t = some true) : x = some t := by
  obtain ⟨y, rfl, hy⟩ := Option.map_eq_some_iff.mp h
  rw [of_decide_eq_true hy]

theorem isSerial_self (t : Fin n) : isSerial (some t) t = some true :=
  congrArg some (decide_eq_true rfl)

namespace System

/-- Since the last elimination the thread has rolled once if it is playing, and not otherwise. -/
def RolledBy (σ : System M) (t : Fin n) : Prop :=
  σ.rolls t = (σ.table.players t).playing.toNat ∧ ((σ.table.players t).playing = true →
    2 ≤ (σ.table.players t).result ∧ (σ.table.players t).result ≤ 12)

/-- The last eliminator announces the winner. -/
def Announced (σ : System M) : Prop :=
  match σ.eliminator with
  | none => σ.announced = []
  | some x => σ.pc x = .finished ∧ (∃ w, σ.announced = [(x, w)] ∧ (σ.table.players w).playing = true) ∨
    σ.pc x ≠ .finished ∧ σ.announced = []

/-- A thread in the rolling phase. -/
def RollingAt (σ : System M) (t : Fin n) (place : Place) : Pc → Prop
  | .inFirst res => (∃ serial, place = .released serial) ∧ res = isSerial σ.eliminator t ∧ σ.rolls t = 0
  | .testing res => place = .outside ∧ res = isSerial σ.eliminator t ∧ σ.rolls t = 0
  | .rolling => place = .outside ∧ σ.table.activePlayers ≠ 1 ∧ σ.rolls t = 0
  | .enteringSecond => place = .outside ∧ σ.table.activePlayers ≠ 1 ∧ σ.RolledBy t
  | .inSecond => place = .waiting ∧ σ.table.activePlayers ≠ 1 ∧ σ.RolledBy t
  | .leaving res => place = .outside ∧ σ.table.activePlayers = 1 ∧ res = isSerial σ.eliminator t
  | .announcing i => place = .outside ∧ σ.table.activePlayers = 1 ∧ σ.eliminator = some t ∧
    ∀ j : Fin n, j.1 < i → (σ.table.players j).playing = false
  | .finished => place = .outside ∧ σ.table.activePlayers = 1
  | _ => False

/-- A thread in the eliminating phase, whose serial thread is `x`, of the round `r`. -/
def EliminatingAt (σ : System M) (x : Option (Fin n)) (r : Nat) (t : Fin n) (place : Place) : Pc → Prop
  | .inSecond => (∃ serial, isSerial x t = some serial ∧ place = .released serial) ∧ σ.rounds t + 1 = r
  | .deciding res => place = .outside ∧ isSerial x t = some res ∧ σ.rounds t = r
  | .eliminating _ => place = .outside ∧ x = some t ∧ σ.rounds t = r
  | .enteringFirst res => place = .outside ∧ res = isSerial x t ∧ σ.rounds t = r
  | .inFirst res => place = .waiting ∧ res = isSerial x t ∧ σ.rounds t = r
  | _ => False

/-- How far the serial thread of the eliminating phase is. -/
def SerialAt (σ : System M) (x : Fin n) : Pc → Prop
  | .inSecond | .deciding _ => σ.table.Ok ∧ (σ.eliminator = none → σ.table.playingCount = n) ∧
    ∀ t, σ.RolledBy t
  | .eliminating p => p.Ok σ.table ∧ σ.eliminator = some x ∧ ∀ t, σ.rolls t = 0
  | _ => σ.table.Ok ∧ σ.eliminator = some x ∧ ∀ t, σ.rolls t = 0

/-- Before the first round there is no serial thread. -/
def Stage (σ : System M) : Option (Fin n) → Prop
  | none => σ.table.Ok ∧ σ.table.playingCount = n ∧ σ.eliminator = none ∧ ∀ t, σ.rolls t = 0
  | some x => σ.SerialAt x (σ.pc x)

end System

structure Rolling (R : Refinement M) (r : Nat) (σ : System M) : Prop where
  ok : R.Ok σ.barrier
  table : σ.table.Ok
  first : σ.eliminator = none → σ.table.playingCount = n
  rounds : ∀ t, σ.rounds t = r
  place : ∀ t, σ.RollingAt t (R.places σ.barrier t) (σ.pc t)
  announced : σ.Announced

structure Eliminating (R : Refinement M) (x : Option (Fin n)) (r : Nat) (σ : System M) : Prop where
  ok : R.Ok σ.barrier
  place : ∀ t, σ.EliminatingAt x r t (R.places σ.barrier t) (σ.pc t)
  stage : σ.Stage x
  announced : σ.announced = []

def Inv (R : Refinement M) (σ : System M) : Prop :=
  (∃ r, Rolling R r σ) ∨ ∃ x r, Eliminating R x r σ

variable {R : Refinement M} {r : Nat} {x : Option (Fin n)} {σ σ' : System M} {t : Fin n}

theorem Inv.start (hn : 1 ≤ n) : Inv R (System.start M) := by
  obtain ⟨hok, hplaces⟩ := R.start
  have hcount : (System.start M).table.playingCount = n := by
    simp [System.start, Table.playingCount, population]
  refine .inr ⟨none, 0, hok, ?_, ⟨⟨?_, ⟨0, hn⟩, rfl⟩, hcount, rfl, fun _ => rfl⟩, rfl⟩
  · intro t
    exact ⟨hplaces t, rfl, rfl⟩
  · rw [hcount]
    rfl

namespace System

theorem Announced.moved {p q : Pc} (h : σ.Announced) (hq : σ.pc t = q) (hqfin : q ≠ .finished)
    (hpc : σ'.pc = Function.update σ.pc t p) (hp : p ≠ .finished) (heliminator : σ'.eliminator = σ.eliminator)
    (hannounced : σ'.announced = σ.announced)
    (hplaying : ∀ u, (σ'.table.players u).playing = (σ.table.players u).playing) : σ'.Announced := by
  unfold Announced at h ⊢
  rw [heliminator]
  cases hx : σ.eliminator with
  | none =>
    rw [hx] at h
    exact hannounced.trans h
  | some x =>
    rw [hx] at h
    have hiff : σ'.pc x = .finished ↔ σ.pc x = .finished := by
      rw [hpc]
      by_cases hxt : x = t
      · subst hxt
        rw [Function.update_self]
        exact iff_of_false hp (hq ▸ hqfin)
      · rw [Function.update_of_ne hxt]
    simpa only [hiff, hannounced, hplaying, ne_eq] using h

end System

namespace Rolling

theorem at_pc {p : Pc} (h : Rolling R r σ) (hpc : σ.pc t = p) :
    σ.RollingAt t (R.places σ.barrier t) p :=
  hpc ▸ h.place t

/-- A step of `t` that leaves the table and what it records of it alone. -/
theorem moved {p : Pc} {place : Place} (h : Rolling R r σ) (hok : R.Ok σ'.barrier)
    (hplaces : R.places σ'.barrier = Function.update (R.places σ.barrier) t place)
    (hpc : σ'.pc = Function.update σ.pc t p) (htable : σ'.table = σ.table)
    (hrounds : σ'.rounds = σ.rounds) (hrolls : σ'.rolls = σ.rolls)
    (heliminator : σ'.eliminator = σ.eliminator) (ht : σ.RollingAt t place p)
    (hannounced : σ'.Announced) : Rolling R r σ' := by
  have hat : ∀ u place p, σ.RollingAt u place p → σ'.RollingAt u place p := by
    intro u place p hu
    cases p <;> first
      | exact hu
      | simpa only [System.RollingAt, System.RolledBy, htable, hrolls, heliminator] using hu
  refine ⟨hok, htable ▸ h.table, by rw [heliminator, htable]; exact h.first, hrounds ▸ h.rounds, ?_,
    hannounced⟩
  intro u
  rw [hplaces, hpc]
  by_cases hut : u = t
  · subst hut
    rw [Function.update_self, Function.update_self]
    exact hat u place p ht
  · rw [Function.update_of_ne hut, Function.update_of_ne hut]
    exact hat u _ _ (h.place u)

/-- A step of `t` that is not one of the barrier. -/
theorem go {p : Pc} (h : Rolling R r σ) (hpc : σ'.pc = Function.update σ.pc t p)
    (hbarrier : σ'.barrier = σ.barrier) (htable : σ'.table = σ.table)
    (hrounds : σ'.rounds = σ.rounds) (hrolls : σ'.rolls = σ.rolls)
    (heliminator : σ'.eliminator = σ.eliminator)
    (ht : σ.RollingAt t (R.places σ.barrier t) p) (hannounced : σ'.Announced) : Rolling R r σ' := by
  refine h.moved (hbarrier ▸ h.ok) ?_ hpc htable hrounds hrolls heliminator ht hannounced
  rw [hbarrier, Function.update_eq_self]

theorem eliminator_ne_none (h : Rolling R r σ) (hn : 2 ≤ n) (hactive : σ.table.activePlayers = 1) :
    σ.eliminator ≠ none := by
  intro hnone
  have hcount := h.first hnone
  have htable := h.table.active
  omega

theorem roll {r₁ r₂ : Nat} (h : Rolling R r σ) (hpc : σ.pc t = .rolling)
    (hplaying : (σ.table.players t).playing = true) :
    Rolling R r { σ with
      table := σ.table.setPlayer t { σ.table.players t with result := Dice.roll r₁ r₂ }
      pc := σ.go t .enteringSecond
      rolls := Function.update σ.rolls t (σ.rolls t + 1) } := by
  obtain ⟨hplace, hactive, hrolls⟩ := h.at_pc hpc
  have hsame : ∀ u, (Function.update σ.table.players t
      { σ.table.players t with result := Dice.roll r₁ r₂ } u).playing = (σ.table.players u).playing := by
    intro u
    by_cases hut : u = t
    · subst hut
      rw [Function.update_self]
    · rw [Function.update_of_ne hut]
  have hcount : (σ.table.setPlayer t
      { σ.table.players t with result := Dice.roll r₁ r₂ }).playingCount = σ.table.playingCount := by
    unfold Table.playingCount population
    exact Finset.sum_congr rfl fun u _ => congrArg Bool.toNat (hsame u)
  refine ⟨h.ok, ⟨h.table.active.trans (congrArg Nat.cast hcount.symm), t, (hsame t).trans hplaying⟩,
    fun hx => hcount.trans (h.first hx), h.rounds, ?_, ?_⟩
  · intro u
    by_cases hut : u = t
    · subst hut
      simp only [System.go, Function.update_self]
      refine ⟨hplace, hactive, ?_, fun _ => ?_⟩
      · simp [hrolls, Table.setPlayer, hplaying]
      · simpa [Table.setPlayer] using roll_mem r₁ r₂
    · have hu := h.place u
      simp only [System.go, Function.update_of_ne hut]
      cases hp : σ.pc u <;> rw [hp] at hu <;> first
        | exact hu
        | simpa [System.RollingAt, System.RolledBy, Table.setPlayer, hut, hsame] using hu
  · exact h.announced.moved hpc nofun rfl nofun rfl rfl hsame

/-- The last eliminator scans the table, the others finish. -/
theorem leave {res : Bool} (h : Rolling R r σ) (hpc : σ.pc t = .leaving (some res)) {p : Pc}
    (hp : p = if res = true then .announcing 0 else .finished) :
    Rolling R r { σ with pc := σ.go t p } := by
  obtain ⟨hplace, hactive, hres⟩ := h.at_pc hpc
  cases res with
  | true =>
    obtain rfl : p = .announcing 0 := hp
    refine h.go rfl rfl rfl rfl rfl rfl ⟨hplace, hactive, isSerial_eq_true hres.symm, ?_⟩
      (h.announced.moved hpc nofun rfl nofun rfl rfl fun _ => rfl)
    intro j hj
    exact absurd hj (Nat.not_lt_zero _)
  | false =>
    obtain rfl : p = .finished := hp
    refine h.go rfl rfl rfl rfl rfl rfl ⟨hplace, hactive⟩ ?_
    have hannounced := h.announced
    unfold System.Announced at hannounced ⊢
    cases hx : σ.eliminator with
    | none => rw [hx] at hres; cases hres
    | some x =>
      rw [hx] at hres hannounced
      have hxt : x ≠ t := by
        rintro rfl
        rw [isSerial_self] at hres
        cases hres
      simp only [System.go, Function.update_of_ne hxt]
      exact hannounced

theorem announce {i : Nat} (h : Rolling R r σ) (hpc : σ.pc t = .announcing i) (hi : i < n)
    (hplaying : (σ.table.players ⟨i, hi⟩).playing = true) :
    Rolling R r { σ with
      pc := σ.go t .finished
      announced := σ.announced ++ [(t, ⟨i, hi⟩)] } := by
  obtain ⟨hplace, hactive, heliminator, -⟩ := h.at_pc hpc
  refine h.go rfl rfl rfl rfl rfl rfl ⟨hplace, hactive⟩ ?_
  have hannounced := h.announced
  unfold System.Announced at hannounced ⊢
  rw [heliminator] at hannounced
  simp only [heliminator, System.go, Function.update_self]
  rcases hannounced with ⟨hfin, -⟩ | ⟨-, hnil⟩
  · rw [hpc] at hfin
    cases hfin
  · rw [hnil]
    exact .inl ⟨trivial, ⟨i, hi⟩, rfl, hplaying⟩

theorem scan {i : Nat} (h : Rolling R r σ) (hpc : σ.pc t = .announcing i) (hi : i < n)
    (hplaying : (σ.table.players ⟨i, hi⟩).playing = false) :
    Rolling R r { σ with pc := σ.go t (.announcing (i + 1)) } := by
  obtain ⟨hplace, hactive, heliminator, hbefore⟩ := h.at_pc hpc
  refine h.go rfl rfl rfl rfl rfl rfl ⟨hplace, hactive, heliminator, ?_⟩
    (h.announced.moved hpc nofun rfl nofun rfl rfl fun _ => rfl)
  intro j hj
  by_cases hji : (j : Nat) < i
  · exact hbefore j hji
  · obtain rfl : j = ⟨i, hi⟩ := Fin.ext (by simp; omega)
    exact hplaying

/-- The scan of the table finds the winner. -/
theorem lt_of_announcing {i : Nat} (h : Rolling R r σ) (hpc : σ.pc t = .announcing i) : i < n := by
  by_contra hi
  have hat := h.at_pc hpc
  obtain ⟨w, hw⟩ := h.table.someone
  rw [hat.2.2.2 w (by omega)] at hw
  cases hw

/-- The second barrier is complete. -/
theorem complete {b : M.State} (h : Rolling R r σ) (hok : R.Ok b) (hplaces : complete? (R.places σ.barrier) t = some (R.places b)) :
    Eliminating R (some t) (r + 1) { σ with barrier := b } := by
  obtain ⟨hwaiting, hreleased⟩ := complete?_cases hplaces
  have hall : ∀ u, σ.pc u = .inSecond ∧ σ.RolledBy u := by
    intro u
    have hat := h.place u
    rw [hwaiting u] at hat
    cases hp : σ.pc u <;> rw [hp] at hat
    case inFirst => obtain ⟨⟨_, hfalse⟩, -⟩ := hat; cases hfalse
    case inSecond => exact ⟨rfl, hat.2.2⟩
    all_goals first | exact hat.elim | exact nomatch hat.1
  refine ⟨hok, ?_, ?_, ?_⟩
  · intro u
    show System.EliminatingAt _ (some t) (r + 1) u (R.places b u) (σ.pc u)
    rw [(hall u).1, hreleased]
    exact ⟨⟨_, rfl, rfl⟩, congrArg (· + 1) (h.rounds u)⟩
  · show System.SerialAt _ t (σ.pc t)
    rw [(hall t).1]
    exact ⟨h.table, h.first, fun u => (hall u).2⟩
  · have hannounced := h.announced
    unfold System.Announced at hannounced
    split at hannounced
    · exact hannounced
    · next y _ =>
      rcases hannounced with ⟨hfin, -⟩ | ⟨-, hnil⟩
      · rw [(hall y).1] at hfin
        cases hfin
      · exact hnil

theorem step {e : Event M} (h : Rolling R r σ) (hs : σ.step e = some σ') :
    Rolling R r σ' ∨ ∃ x, Eliminating R (some x) (r + 1) σ' := by
  cases System.step_cases hs with
  | enterFirst hpc | decideSerial hpc | decide hpc | eliminate hpc | eliminated hpc =>
    exact (h.at_pc hpc).elim
  | @enterSecond t b hpc hb =>
    have hat := h.at_pc hpc
    obtain ⟨hok, hcall⟩ := R.call _ _ _ h.ok hb
    exact .inl (h.moved hok (call?_cases hcall).2 rfl rfl rfl rfl rfl ⟨rfl, hat.2⟩
      (h.announced.moved hpc nofun rfl nofun rfl rfl fun _ => rfl))
  | within hb =>
    obtain ⟨hok, hsame | ⟨t, hcomplete⟩⟩ := R.internal _ _ _ h.ok hb
    · exact .inl ⟨hok, h.table, h.first, h.rounds, fun u => hsame ▸ h.place u, h.announced⟩
    · exact .inr ⟨t, h.complete hok hcomplete⟩
  | @exitFirst t res serial b hpc hb =>
    have hat := h.at_pc hpc
    obtain ⟨hok, hreturn⟩ := R.ret _ _ _ _ h.ok hb
    exact .inl (h.moved hok (return?_cases hreturn).2 rfl rfl rfl rfl rfl ⟨rfl, hat.2⟩
      (h.announced.moved hpc nofun rfl nofun rfl rfl fun _ => rfl))
  | @exitSecond t serial b hpc hb =>
    have hat := h.at_pc hpc
    rw [(return?_cases (R.ret _ _ _ _ h.ok hb).2).1] at hat
    cases hat.1
  | @testLast t res hpc hactive =>
    have hat := h.at_pc hpc
    exact .inl (h.go rfl rfl rfl rfl rfl rfl ⟨hat.1, hactive, hat.2.1⟩
      (h.announced.moved hpc nofun rfl nofun rfl rfl fun _ => rfl))
  | @testMore t res hpc hactive =>
    have hat := h.at_pc hpc
    exact .inl (h.go rfl rfl rfl rfl rfl rfl ⟨hat.1, hactive, hat.2.2⟩
      (h.announced.moved hpc nofun rfl nofun rfl rfl fun _ => rfl))
  | roll hpc hplaying => exact .inl (h.roll hpc hplaying)
  | @skip t _ _ hpc hplaying =>
    have hat := h.at_pc hpc
    have hrolled : σ.RolledBy t := by
      refine ⟨?_, ?_⟩
      · rw [hplaying]
        exact hat.2.2
      · intro hplays
        rw [hplaying] at hplays
        cases hplays
    exact .inl (h.go rfl rfl rfl rfl rfl rfl ⟨hat.1, hat.2.1, hrolled⟩
      (h.announced.moved hpc nofun rfl nofun rfl rfl fun _ => rfl))
  | leaveSerial hpc => exact .inl (h.leave hpc rfl)
  | leave hpc => exact .inl (h.leave hpc rfl)
  | announce hpc hi hplaying => exact .inl (h.announce hpc hi hplaying)
  | scan hpc hi hplaying => exact .inl (h.scan hpc hi hplaying)
  | noWinner hpc hi => exact absurd (h.lt_of_announcing hpc) hi

end Rolling

namespace Eliminating

theorem at_pc {p : Pc} (h : Eliminating R x r σ) (hpc : σ.pc t = p) :
    σ.EliminatingAt x r t (R.places σ.barrier t) p :=
  hpc ▸ h.place t

/-- A step of `t` that leaves the table and what it records of it alone. -/
theorem moved {p : Pc} {place : Place} (h : Eliminating R x r σ) (hok : R.Ok σ'.barrier)
    (hplaces : R.places σ'.barrier = Function.update (R.places σ.barrier) t place)
    (hpc : σ'.pc = Function.update σ.pc t p) (ht : σ'.EliminatingAt x r t place p)
    (hrounds : ∀ u, u ≠ t → σ'.rounds u = σ.rounds u) (hstage : σ'.Stage x)
    (hannounced : σ'.announced = σ.announced) : Eliminating R x r σ' := by
  refine ⟨hok, ?_, hstage, hannounced.trans h.announced⟩
  intro u
  rw [hplaces, hpc]
  by_cases hut : u = t
  · subst hut
    rw [Function.update_self, Function.update_self]
    exact ht
  · have hu := h.place u
    rw [Function.update_of_ne hut, Function.update_of_ne hut]
    cases hp : σ.pc u <;> rw [hp] at hu <;> first
      | exact hu
      | simpa only [System.EliminatingAt, hrounds u hut] using hu

theorem go {p : Pc} (h : Eliminating R x r σ) (hpc : σ'.pc = Function.update σ.pc t p)
    (hbarrier : σ'.barrier = σ.barrier) (hrounds : σ'.rounds = σ.rounds)
    (ht : σ.EliminatingAt x r t (R.places σ.barrier t) p) (hstage : σ'.Stage x)
    (hannounced : σ'.announced = σ.announced) : Eliminating R x r σ' := by
  have hplaces : R.places σ'.barrier = Function.update (R.places σ.barrier) t (R.places σ.barrier t) := by
    rw [hbarrier, Function.update_eq_self]
  refine h.moved (hbarrier ▸ h.ok) hplaces hpc ?_ (fun _ _ => by rw [hrounds]) hstage hannounced
  cases p <;> first
    | exact ht
    | simpa only [System.EliminatingAt, hrounds] using ht

/-- A step that leaves the table and what is recorded of it alone, after which the serial thread is as
far as before. -/
theorem stage_moved {p : Pc} (h : Eliminating R x r σ) (hpc : σ'.pc = Function.update σ.pc t p)
    (htable : σ'.table = σ.table) (hrolls : σ'.rolls = σ.rolls)
    (heliminator : σ'.eliminator = σ.eliminator)
    (hserial : x = some t → σ.SerialAt t (σ.pc t) → σ.SerialAt t p) : σ'.Stage x := by
  have hstage := h.stage
  cases x with
  | none => simpa only [System.Stage, htable, hrolls, heliminator] using hstage
  | some y =>
    have hat : ∀ p, σ.SerialAt y p → σ'.SerialAt y p := by
      intro p hy
      cases p <;>
        simpa only [System.SerialAt, System.RolledBy, htable, hrolls, heliminator] using hy
    show σ'.SerialAt y (σ'.pc y)
    rw [hpc]
    by_cases hyt : y = t
    · subst hyt
      rw [Function.update_self]
      exact hat p (hserial rfl hstage)
    · rw [Function.update_of_ne hyt]
      exact hat _ hstage

/-- The first barrier of the next round is complete. -/
theorem complete {b : M.State} (h : Eliminating R x r σ) (hok : R.Ok b)
    (hplaces : complete? (R.places σ.barrier) t = some (R.places b)) :
    Rolling R r { σ with barrier := b } := by
  obtain ⟨hwaiting, hreleased⟩ := complete?_cases hplaces
  have hall : ∀ u, σ.pc u = .inFirst (isSerial x u) ∧ σ.rounds u = r := by
    intro u
    have hat := h.place u
    rw [hwaiting u] at hat
    cases hp : σ.pc u <;> rw [hp] at hat
    case inFirst res => exact ⟨congrArg Pc.inFirst hat.2.1, hat.2.2⟩
    case inSecond => obtain ⟨⟨_, _, hfalse⟩, -⟩ := hat; cases hfalse
    all_goals first | exact hat.elim | exact nomatch hat.1
  obtain ⟨htable, hfirst, heliminator, hrolls⟩ : σ.table.Ok ∧
      (σ.eliminator = none → σ.table.playingCount = n) ∧ σ.eliminator = x ∧ ∀ u, σ.rolls u = 0 := by
    cases x with
    | none => exact ⟨h.stage.1, fun _ => h.stage.2.1, h.stage.2.2⟩
    | some y =>
      have hstage : σ.SerialAt y (σ.pc y) := h.stage
      rw [(hall y).1] at hstage
      obtain ⟨htable, heliminator, hrolls⟩ := hstage
      exact ⟨htable, fun hnone => (nomatch heliminator.symm.trans hnone), heliminator, hrolls⟩
  refine ⟨hok, htable, hfirst, fun u => (hall u).2, ?_, ?_⟩
  · intro u
    show System.RollingAt _ u (R.places b u) (σ.pc u)
    rw [(hall u).1, hreleased]
    exact ⟨⟨_, rfl⟩, congrArg (isSerial · u) heliminator.symm, hrolls u⟩
  · unfold System.Announced
    split
    · exact h.announced
    · next y _ =>
      refine .inr ⟨?_, h.announced⟩
      show σ.pc y ≠ _
      rw [(hall y).1]
      exact nofun

/-- The serial thread begins to eliminate. -/
theorem decideSerial (h : Eliminating R x r σ) (hpc : σ.pc t = .deciding true) :
    Eliminating R x r { σ with
      pc := σ.go t (.eliminating (.minimum 0 INT_MAX))
      rolls := fun _ => 0
      eliminator := some t } := by
  obtain ⟨hplace, hserial, hrounds⟩ := h.at_pc hpc
  obtain rfl := isSerial_eq_true hserial
  have hstage : σ.SerialAt t (σ.pc t) := h.stage
  rw [hpc] at hstage
  obtain ⟨htable, -, hrolled⟩ := hstage
  refine h.go rfl rfl rfl ⟨hplace, rfl, hrounds⟩ ?_ rfl
  show System.SerialAt _ t (Function.update σ.pc t _ t)
  rw [Function.update_self]
  exact ⟨.start htable fun u => (hrolled u).2, rfl, fun _ => rfl⟩

theorem eliminate {p : Elimination} {next : Option Elimination} {table : Table n}
    (h : Eliminating R x r σ) (hpc : σ.pc t = .eliminating p)
    (hp : σ.table.eliminateStep p = (table, next)) {q : Pc}
    (hq : q = match next with
      | some p' => .eliminating p'
      | none => .enteringFirst (some true)) :
    Eliminating R x r { σ with table := table, pc := σ.go t q } := by
  obtain ⟨hplace, rfl, hrounds⟩ := h.at_pc hpc
  have hstage : σ.SerialAt t (σ.pc t) := h.stage
  rw [hpc] at hstage
  obtain ⟨hok, heliminator, hrolls⟩ := hstage
  have hnext := hok.step hp
  cases next with
  | some p' =>
    obtain rfl : q = .eliminating p' := hq
    refine h.go rfl rfl rfl ⟨hplace, rfl, hrounds⟩ ?_ rfl
    show System.SerialAt _ t (Function.update σ.pc t _ t)
    rw [Function.update_self]
    exact ⟨hnext, heliminator, hrolls⟩
  | none =>
    obtain rfl : q = .enteringFirst (some true) := hq
    refine h.go rfl rfl rfl ⟨hplace, (isSerial_self t).symm, hrounds⟩ ?_ rfl
    show System.SerialAt _ t (Function.update σ.pc t _ t)
    rw [Function.update_self]
    exact ⟨hnext, heliminator, hrolls⟩

theorem step {e : Event M} (h : Eliminating R x r σ) (hs : σ.step e = some σ') :
    Eliminating R x r σ' ∨ Rolling R r σ' := by
  cases System.step_cases hs with
  | @enterFirst t res b hpc hb =>
    have hat := h.at_pc hpc
    obtain ⟨hok, hcall⟩ := R.call _ _ _ h.ok hb
    refine .inl (h.moved hok (call?_cases hcall).2 rfl ⟨rfl, hat.2⟩ (fun _ _ => rfl) ?_ rfl)
    refine h.stage_moved rfl rfl rfl rfl ?_
    rw [hpc]
    exact fun _ hserial => hserial
  | enterSecond hpc | testLast hpc | testMore hpc | roll hpc | skip hpc | leaveSerial hpc | leave hpc
  | announce hpc | scan hpc | noWinner hpc => exact (h.at_pc hpc).elim
  | within hb =>
    obtain ⟨hok, hsame | ⟨t, hcomplete⟩⟩ := R.internal _ _ _ h.ok hb
    · refine .inl ⟨hok, fun u => hsame ▸ h.place u, ?_, h.announced⟩
      cases x <;> exact h.stage
    · exact .inr (h.complete hok hcomplete)
  | @exitFirst t res serial b hpc hb =>
    have hat := h.at_pc hpc
    rw [(return?_cases (R.ret _ _ _ _ h.ok hb).2).1] at hat
    cases hat.1
  | @exitSecond t serial b hpc hb =>
    have hat := h.at_pc hpc
    obtain ⟨hok, hreturn⟩ := R.ret _ _ _ _ h.ok hb
    obtain ⟨hreleased, hplaces⟩ := return?_cases hreturn
    rw [hreleased] at hat
    obtain ⟨⟨_, hserial, heq⟩, hrounds⟩ := hat
    cases heq
    refine .inl (h.moved hok hplaces rfl ⟨rfl, hserial, ?_⟩ ?_ ?_ rfl)
    · exact (Function.update_self ..).trans hrounds
    · intro u hut
      exact Function.update_of_ne hut ..
    · refine h.stage_moved rfl rfl rfl rfl ?_
      rw [hpc]
      exact fun _ hserial => hserial
  | decideSerial hpc => exact .inl (h.decideSerial hpc)
  | @decide t hpc =>
    have hat := h.at_pc hpc
    refine .inl (h.go rfl rfl rfl ⟨hat.1, hat.2.1.symm, hat.2.2⟩ ?_ rfl)
    refine h.stage_moved rfl rfl rfl rfl ?_
    rintro rfl
    exact nomatch (isSerial_self t).symm.trans hat.2.1
  | eliminate hpc hp => exact .inl (h.eliminate hpc hp rfl)
  | eliminated hpc hp => exact .inl (h.eliminate hpc hp rfl)

end Eliminating

theorem Inv.step {e : Event M} (h : Inv R σ) (hs : σ.step e = some σ') : Inv R σ' := by
  rcases h with ⟨r, h⟩ | ⟨x, r, h⟩
  · rcases h.step hs with h | ⟨x, h⟩
    · exact .inl ⟨r, h⟩
    · exact .inr ⟨some x, r + 1, h⟩
  · rcases h.step hs with h | h
    · exact .inr ⟨x, r, h⟩
    · exact .inl ⟨r, h⟩

theorem Inv.of_run {events : List (Event M)} (hn : 1 ≤ n)
    (hr : Transition.run System.step (System.start M) events = some σ) : Inv R σ :=
  Transition.run_inv (fun _ _ _ h hs => h.step hs) (start hn) hr

end OsExercises.Dice
