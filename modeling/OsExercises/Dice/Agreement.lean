import OsExercises.Dice.Invariant

/-!
# One winner, and rounds that do not overlap

Whoever has left the loop found one player left, in the rolling phase: nobody rolls any more, all have
played as many rounds, and whoever has not left will find the same (`Agreed`). An elimination runs in
the eliminating phase, where no other thread touches the table (`RoundsApart`). Both hold for either
barrier.
-/

namespace OsExercises.Dice
open CyclicBarrier Transition

variable {n : Nat}

theorem one_le (hn : 2 ≤ n) : 1 ≤ n := by omega

theorem nonempty_fin (hn : 2 ≤ n) : Nonempty (Fin n) := ⟨⟨0, one_le hn⟩⟩

/-- The barrier of either variant is one for `n` threads. -/
def Variant.refinement (hn : 2 ≤ n) (hmax : (n : Int) ≤ INT_MAX) : (v : Variant) → Refinement (v.machine n)
  | .posix => have := nonempty_fin hn; spec_refinement (Fin n)
  | .own => Barrier.refinement (Fintype.card_fin n) (one_le hn) hmax

variable {M : Machine (Fin n)} {R : Refinement M} {r : Nat} {x : Option (Fin n)} {σ : System M} {t : Fin n}

/-! ### The threads agree -/

/-- All threads play the same number of rounds, one player is left, and the last eliminator announces
that player. -/
structure Agreed (R : Refinement M) (σ : System M) : Prop where
  /-- When a thread has left, the others have or are on their way out of the last barrier. -/
  together : ∀ t, (σ.pc t).left = true → ∀ u, σ.rounds u = σ.rounds t ∧
    R.places σ.barrier u ≠ .waiting ∧
    ((σ.pc u).left = true ∨ ∃ res, σ.pc u = .inFirst res ∨ σ.pc u = .testing res)
  goesOn : (∃ t, σ.pc t ≠ .finished) → ∃ e σ', e.spurious = false ∧ σ.step e = some σ'
  winner : ∀ t, (σ.pc t).left = true → ∃! w, (σ.table.players w).playing = true
  announced : (∀ t, σ.pc t = .finished) → ∃ t w, σ.announced = [(t, w)] ∧ σ.eliminator = some t ∧
    (σ.table.players w).playing = true

theorem Rolling.of_left (h : Rolling R r σ) (ht : (σ.pc t).left = true) :
    σ.table.activePlayers = 1 := by
  have hat := h.place t
  cases hpc : σ.pc t <;> rw [hpc] at ht hat
  case leaving => exact hat.2.1
  case announcing => exact hat.2.1
  case finished => exact hat.2
  all_goals cases ht

theorem Eliminating.not_left (h : Eliminating R x r σ) (t : Fin n) : (σ.pc t).left = false := by
  have hat := h.place t
  cases hpc : σ.pc t <;> rw [hpc] at hat <;> first
    | rfl
    | exact hat.elim

theorem Rolling.together (h : Rolling R r σ) (hactive : σ.table.activePlayers = 1) (u : Fin n) :
    R.places σ.barrier u ≠ .waiting ∧
      ((σ.pc u).left = true ∨ ∃ res, σ.pc u = .inFirst res ∨ σ.pc u = .testing res) := by
  have hat := h.place u
  cases hpc : σ.pc u <;> rw [hpc] at hat
  case inFirst res =>
    obtain ⟨⟨serial, hplace⟩, -⟩ := hat
    rw [hplace]
    exact ⟨nofun, .inr ⟨res, .inl rfl⟩⟩
  case testing res => rw [hat.1]; exact ⟨nofun, .inr ⟨res, .inr rfl⟩⟩
  case leaving => rw [hat.1]; exact ⟨nofun, .inl rfl⟩
  case announcing => rw [hat.1]; exact ⟨nofun, .inl rfl⟩
  case finished => rw [hat.1]; exact ⟨nofun, .inl rfl⟩
  case rolling => exact absurd hactive hat.2.1
  case enteringSecond => exact absurd hactive hat.2.1
  case inSecond => exact absurd hactive hat.2.1
  all_goals exact hat.elim

theorem exists_unique_playing {table : Table n} (h : table.Ok) (hactive : table.activePlayers = 1) :
    ∃! w, (table.players w).playing = true := by
  have hcount : ∑ u, (table.players u).playing.toNat = 1 := by
    have hactive' := h.active
    rw [hactive] at hactive'
    unfold Table.playingCount population at hactive'
    omega
  obtain ⟨w, hw, hothers⟩ := exists_eq_one_of_sum_eq_one hcount
  refine ⟨w, by simpa using hw, ?_⟩
  intro u hu
  by_contra huw
  have hzero := hothers u huw
  rw [hu] at hzero
  cases hzero

/-! ### Somebody goes on -/

/-- The thread is in one of the two barriers. -/
def Pc.inside : Pc → Bool
  | .inFirst _ | .inSecond => true
  | _ => false

theorem Rolling.inside_of_released {serial : Bool} (h : Rolling R r σ)
    (ht : R.places σ.barrier t = .released serial) : (σ.pc t).inside = true := by
  have hat := h.place t
  rw [ht] at hat
  cases hpc : σ.pc t <;> rw [hpc] at hat <;> first
    | rfl
    | exact hat.elim
    | exact nomatch hat.1

theorem Eliminating.inside_of_released {serial : Bool} (h : Eliminating R x r σ)
    (ht : R.places σ.barrier t = .released serial) : (σ.pc t).inside = true := by
  have hat := h.place t
  rw [ht] at hat
  cases hpc : σ.pc t <;> rw [hpc] at hat <;> first
    | rfl
    | exact hat.elim
    | exact nomatch hat.1

/-- Some step other than a spurious wake-up is enabled. -/
def CanGoOn (σ : System M) : Prop := ∃ e σ', e.spurious = false ∧ σ.step e = some σ'

theorem canGoOn_of_isSome (e : Event M) (hspurious : e.spurious = false)
    (h : (σ.step e).isSome = true) : CanGoOn σ := by
  obtain ⟨σ', hs⟩ := Option.isSome_iff_exists.mp h
  exact ⟨e, σ', hspurious, hs⟩

theorem canGoOn_of_barrier (hok : R.Ok σ.barrier)
    (hinside : ∀ t serial, R.places σ.barrier t = .released serial → (σ.pc t).inside = true)
    (hplaces : (∃ t serial, R.places σ.barrier t = .released serial) ∨
      ∀ t, R.places σ.barrier t = .waiting) : CanGoOn σ := by
  rcases R.goesOn _ hok hplaces with ⟨e, b, hspurious, hb⟩ | ⟨t, serial, b, hb⟩
  · exact canGoOn_of_isSome (.barrier e) hspurious (by simp [System.step, System.within, hb])
  · have ht := hinside t serial (return?_cases (R.ret _ _ _ _ hok hb).2).1
    refine canGoOn_of_isSome (.exit t) rfl ?_
    cases hpc : σ.pc t <;> rw [hpc] at ht
    case inFirst => simp [System.step, System.exit, hpc, hb]
    case inSecond => simp [System.step, System.exit, hpc, hb]
    all_goals cases ht

/-- A thread that is neither in a barrier nor finished goes on. -/
theorem canGoOn_of_not_inside (hok : R.Ok σ.barrier)
    (hentering : ∀ res, σ.pc t = .enteringFirst res ∨ σ.pc t = .enteringSecond →
      R.places σ.barrier t = .outside)
    (hleaving : σ.pc t ≠ .leaving none) (hinside : (σ.pc t).inside = false)
    (hfinished : σ.pc t ≠ .finished) : CanGoOn σ := by
  cases hpc : σ.pc t with
  | enteringFirst res =>
    obtain ⟨b, hb⟩ := R.enabled _ t hok (hentering res (.inl hpc))
    exact canGoOn_of_isSome (.enter t) rfl (by simp [System.step, System.enter, hpc, hb])
  | enteringSecond =>
    obtain ⟨b, hb⟩ := R.enabled _ t hok (hentering none (.inr hpc))
    exact canGoOn_of_isSome (.enter t) rfl (by simp [System.step, System.enter, hpc, hb])
  | inFirst res => rw [hpc] at hinside; cases hinside
  | inSecond => rw [hpc] at hinside; cases hinside
  | testing res =>
    refine canGoOn_of_isSome (.test t) rfl ?_
    simp only [System.step, System.test, hpc]
    split <;> rfl
  | rolling =>
    refine canGoOn_of_isSome (.roll t 0 0) rfl ?_
    simp only [System.step, System.roll, hpc]
    split <;> rfl
  | deciding res =>
    refine canGoOn_of_isSome (.decide t) rfl ?_
    cases res <;> simp [System.step, System.decide, hpc]
  | eliminating p =>
    refine canGoOn_of_isSome (.eliminate t) rfl ?_
    simp only [System.step, System.eliminate, hpc]
    split <;> rfl
  | leaving res =>
    refine canGoOn_of_isSome (.leave t) rfl ?_
    rcases res with _ | _ | _
    · exact absurd hpc hleaving
    · simp [System.step, System.leave, hpc]
    · simp [System.step, System.leave, hpc]
  | announcing i =>
    refine canGoOn_of_isSome (.announce t) rfl ?_
    simp only [System.step, System.announce, hpc]
    split
    · split <;> rfl
    · rfl
  | finished => exact absurd hpc hfinished

theorem Rolling.canGoOn (h : Rolling R r σ) (hn : 2 ≤ n) (ht : σ.pc t ≠ .finished) : CanGoOn σ := by
  by_cases hlocal : ∃ u, (σ.pc u).inside = false ∧ σ.pc u ≠ .finished
  · obtain ⟨u, hinside, hfinished⟩ := hlocal
    refine canGoOn_of_not_inside h.ok ?_ ?_ hinside hfinished
    · rintro res (hpc | hpc)
      · exact (h.at_pc hpc).elim
      · exact (h.at_pc hpc).1
    · intro hpc
      obtain ⟨-, hactive, hres⟩ := h.at_pc hpc
      exact h.eliminator_ne_none hn hactive (Option.map_eq_none_iff.mp hres.symm)
  · refine canGoOn_of_barrier h.ok (fun u _ hu => h.inside_of_released hu) ?_
    by_cases hfirst : ∃ u res, σ.pc u = .inFirst res
    · obtain ⟨u, res, hpc⟩ := hfirst
      obtain ⟨⟨serial, hplace⟩, -⟩ := h.at_pc hpc
      exact .inl ⟨u, serial, hplace⟩
    · -- all unfinished threads wait at the second barrier, so that none has finished
      have hsecond : ∀ u, σ.pc u ≠ .finished → σ.pc u = .inSecond := by
        intro u hu
        have hinside : (σ.pc u).inside = true := by
          by_contra hin
          exact hlocal ⟨u, by simpa using hin, hu⟩
        cases hpc : σ.pc u <;> rw [hpc] at hinside
        case inFirst res => exact absurd ⟨u, res, hpc⟩ hfirst
        all_goals cases hinside
      have hat := h.at_pc (hsecond t ht)
      refine .inr fun u => ?_
      have hu := h.place u
      by_cases hfin : σ.pc u = .finished
      · rw [hfin] at hu
        exact absurd hu.2 hat.2.1
      · rw [hsecond u hfin] at hu
        exact hu.1

theorem Eliminating.canGoOn (h : Eliminating R x r σ) : CanGoOn σ := by
  by_cases hlocal : ∃ u, (σ.pc u).inside = false
  · obtain ⟨u, hinside⟩ := hlocal
    refine canGoOn_of_not_inside h.ok ?_ ?_ hinside ?_
    · rintro res (hpc | hpc)
      · exact (h.at_pc hpc).1
      · exact (h.at_pc hpc).elim
    · intro hpc
      exact h.at_pc hpc
    · intro hpc
      exact h.at_pc hpc
  · refine canGoOn_of_barrier h.ok (fun u _ hu => h.inside_of_released hu) ?_
    by_cases hsecond : ∃ u, σ.pc u = .inSecond
    · obtain ⟨u, hpc⟩ := hsecond
      obtain ⟨⟨serial, -, hplace⟩, -⟩ := h.at_pc hpc
      exact .inl ⟨u, serial, hplace⟩
    · refine .inr fun u => ?_
      have hinside : (σ.pc u).inside = true := by
        by_contra hin
        exact hlocal ⟨u, by simpa using hin⟩
      have hat := h.place u
      cases hpc : σ.pc u <;> rw [hpc] at hinside hat
      case inFirst => exact hat.1
      case inSecond => exact absurd ⟨u, hpc⟩ hsecond
      all_goals cases hinside

/-! ### The winner -/

theorem Inv.agreement (h : Inv R σ) (hn : 2 ≤ n) : Agreed R σ := by
  rcases h with ⟨r, h⟩ | ⟨x, r, h⟩
  · refine ⟨?_, fun ⟨t, ht⟩ => h.canGoOn hn ht, ?_, ?_⟩
    · intro t ht u
      exact ⟨(h.rounds u).trans (h.rounds t).symm, h.together (h.of_left ht) u⟩
    · intro t ht
      exact exists_unique_playing h.table (h.of_left ht)
    · intro hall
      have hactive : σ.table.activePlayers = 1 := h.of_left (t := ⟨0, by omega⟩) (by rw [hall]; rfl)
      obtain ⟨x, hx⟩ := Option.ne_none_iff_exists'.mp (h.eliminator_ne_none hn hactive)
      have hannounced := h.announced
      unfold System.Announced at hannounced
      rw [hx] at hannounced
      rcases hannounced with ⟨-, w, hw, hplaying⟩ | ⟨hunfinished, -⟩
      · exact ⟨x, w, hw, hx, hplaying⟩
      · exact absurd (hall x) hunfinished
  · refine ⟨?_, fun _ => h.canGoOn, ?_, ?_⟩
    · intro t ht
      rw [h.not_left t] at ht
      cases ht
    · intro t ht
      rw [h.not_left t] at ht
      cases ht
    · intro hall
      have hleft := h.not_left ⟨0, by omega⟩
      rw [hall] at hleft
      cases hleft

theorem agreed (v : Variant) (hn : 2 ≤ n) (hmax : (n : Int) ≤ INT_MAX)
    (events : List (Event (v.machine n))) (σ : System (v.machine n))
    (hr : run System.step (System.start (v.machine n)) events = some σ) :
    Agreed (v.refinement hn hmax) σ :=
  (Inv.of_run (by omega) hr).agreement hn

/-- Both players roll, `b` is the serial thread and eliminates itself, and announces that the other
player has won. -/
def oneRound (a b : Fin 2) : List (Event (Variant.posix.machine 2)) :=
  [.enter a, .enter b, .barrier a, .exit a, .exit b, .test a, .test b, .roll a 0 0, .roll b 5 5,
    .enter b, .enter a, .barrier b, .exit b, .exit a, .decide b, .decide a, .enter a,
    .eliminate b, .eliminate b, .eliminate b, .eliminate b, .eliminate b, .eliminate b, .eliminate b,
    .eliminate b, .eliminate b, .eliminate b, .enter b, .barrier a, .exit a, .exit b, .test a,
    .test b, .leave a, .leave b, .announce b]

theorem agreed_oneRound : ∃ σ, run System.step (System.start (Variant.posix.machine 2)) (oneRound 0 1) = some σ ∧
    σ.announced = [(1, 0)] ∧ Agreed (Variant.posix.refinement (by decide) (by decide)) σ := by
  have hannounced : (run System.step (System.start (Variant.posix.machine 2)) (oneRound 0 1)).map
      (fun σ => σ.announced) = some [(1, 0)] := by decide +kernel
  obtain ⟨σ, hr, hannounced⟩ := Option.map_eq_some_iff.mp hannounced
  exact ⟨σ, hr, hannounced, agreed .posix (by decide) (by decide) (oneRound 0 1) σ hr⟩

/-! ### The rounds do not overlap -/

/-- The thread that takes the step; the steps within the barrier touch nothing else. -/
def Event.actor : Event M → Option (Fin n)
  | .enter t | .exit t | .test t | .roll t _ _ | .decide t | .eliminate t | .leave t | .announce t => some t
  | .barrier _ => none

/-- The step neither reads nor writes a player's `playing` or `result` or `active_players`. -/
def IgnoresTable (σ : System M) (e : Event M) : Prop :=
  ∀ table, ({ σ with table := table } : System M).step e =
    (σ.step e).map fun σ' => { σ' with table := table }

theorem ignoresTable_of_not_accesses {e : Event M}
    (h : ∀ t, e.actor = some t → (σ.pc t).accesses = false) : IgnoresTable σ e := by
  intro table
  cases e with
  | barrier e =>
    simp only [System.step, System.within]
    cases M.internal σ.barrier e <;> rfl
  | enter t =>
    simp only [System.step, System.enter]
    cases σ.pc t <;> cases M.call σ.barrier t <;> rfl
  | exit t =>
    simp only [System.step, System.exit]
    cases σ.pc t <;> cases M.ret σ.barrier t <;> rfl
  | decide t =>
    simp only [System.step, System.decide]
    split <;> rfl
  | leave t =>
    simp only [System.step, System.leave]
    split <;> rfl
  | test t =>
    have ht := h t rfl
    simp only [System.step, System.test]
    cases hpc : σ.pc t <;> first
      | rfl
      | rw [hpc] at ht; cases ht
  | roll t r₁ r₂ =>
    have ht := h t rfl
    simp only [System.step, System.roll]
    cases hpc : σ.pc t <;> first
      | rfl
      | rw [hpc] at ht; cases ht
  | eliminate t =>
    have ht := h t rfl
    simp only [System.step, System.eliminate]
    cases hpc : σ.pc t <;> first
      | rfl
      | rw [hpc] at ht; cases ht
  | announce t =>
    have ht := h t rfl
    simp only [System.step, System.announce]
    cases hpc : σ.pc t <;> first
      | rfl
      | rw [hpc] at ht; cases ht

/-- When an elimination is about to start, every player that is playing has rolled once since the last
one and the others have not; while it runs, no other step touches the table. -/
structure RoundsApart (σ : System M) : Prop where
  rolled : ∀ t, σ.pc t = .deciding true → ∀ u, σ.rolls u = (σ.table.players u).playing.toNat
  alone : ∀ t p, σ.pc t = .eliminating p → ∀ e, e.actor ≠ some t → IgnoresTable σ e

theorem Inv.apart (h : Inv R σ) : RoundsApart σ := by
  rcases h with ⟨r, h⟩ | ⟨x, r, h⟩
  · refine ⟨?_, ?_⟩
    · intro t hpc
      exact (h.at_pc hpc).elim
    · intro t p hpc
      exact (h.at_pc hpc).elim
  · refine ⟨?_, ?_⟩
    · intro t hpc u
      have hat := h.at_pc hpc
      obtain rfl := isSerial_eq_true hat.2.1
      have hstage : σ.SerialAt t (σ.pc t) := h.stage
      rw [hpc] at hstage
      exact (hstage.2.2 u).1
    · intro t p hpc e he
      refine ignoresTable_of_not_accesses ?_
      intro u hu
      have hut : u ≠ t := fun heq => he (heq ▸ hu)
      have hat := h.place t
      have hatu := h.place u
      rw [hpc] at hat
      cases hpcu : σ.pc u <;> rw [hpcu] at hatu <;> first
        | rfl
        | exact hatu.elim
        | exact absurd (Option.some.inj (hatu.2.1.symm.trans hat.2.1)) hut

theorem roundsApart (v : Variant) (hn : 2 ≤ n) (hmax : (n : Int) ≤ INT_MAX)
    (events : List (Event (v.machine n))) (σ : System (v.machine n))
    (hr : run System.step (System.start (v.machine n)) events = some σ) : RoundsApart σ :=
  (Inv.of_run (R := v.refinement hn hmax) (by omega) hr).apart

/-- Thread 1 eliminates while thread 0 waits for the next round. -/
theorem roundsApart_oneRound : ∃ σ,
    run System.step (System.start (Variant.posix.machine 2)) ((oneRound 0 1).take 17) = some σ ∧
    σ.pc 1 = .eliminating (.minimum 0 INT_MAX) ∧ RoundsApart σ := by
  have hpc : (run System.step (System.start (Variant.posix.machine 2)) ((oneRound 0 1).take 17)).map
      (fun σ => σ.pc 1) = some (.eliminating (.minimum 0 INT_MAX)) := by decide +kernel
  obtain ⟨σ, hr, hpc⟩ := Option.map_eq_some_iff.mp hpc
  exact ⟨σ, hr, hpc, roundsApart .posix (by decide) (by decide) _ σ hr⟩

end OsExercises.Dice
