import OsExercises.Dice.Agreement

/-!
# Joining the players and freeing their records

The last loop of `main` next to the threads: it joins thread `i` and frees `players[i]`, whose contents
are arbitrary from then on. The thread that announces the winner reads the records of all players up to
the winner after the last barrier, when others may have finished; so the clean-up overtakes it unless
it has scanned a record before that record is freed (`liveReads_of_meets`).
-/

namespace OsExercises.Dice

variable {n : Nat}

namespace Pc

/-- The next step of thread `t` reads `players[j]`. -/
def reads (t j : Fin n) : Pc → Bool
  | .rolling => j = t
  | .eliminating (.minimum i _) | .eliminating (.maximum _ i _) | .eliminating (.removing i _) => j.1 = i
  | .announcing i => j.1 = i
  | _ => false

/-- The thread is out of the last round and has still to look at `players[j]` in `get_winner_id`. -/
def toScan (j : Nat) : Pc → Bool
  | .inFirst (some true) | .testing (some true) | .leaving (some true) => true
  | .announcing i => i ≤ j
  | _ => false

end Pc

end OsExercises.Dice

namespace OsExercises.Dice.Cleanup
open CyclicBarrier Transition

variable {n : Nat} {M : Machine (Fin n)}

inductive MainPc (n : Nat) where
  /-- At the condition of the loop that joins. -/
  | joining (i : Nat)
  /-- Before `free(players[i])`. -/
  | freeing (i : Fin n)
deriving DecidableEq

structure System {n : Nat} (M : Machine (Fin n)) where
  game : Dice.System M
  main : MainPc n
  /-- The records that have been freed. -/
  freed : Fin n → Bool

inductive Event {n : Nat} (M : Machine (Fin n)) where
  | game (e : Dice.Event M)
  | join
  /-- What is found at the address of the freed record from then on. -/
  | free (contents : Player)

namespace System

def start (M : Machine (Fin n)) : System M := ⟨.start M, .joining 0, fun _ => false⟩

def join (σ : System M) : Option (System M) :=
  match σ.main with
  | .joining i =>
    if h : i < n then
      if σ.game.pc ⟨i, h⟩ = .finished then some { σ with main := .freeing ⟨i, h⟩ } else none
    else none
  | .freeing _ => none

def free (σ : System M) (contents : Player) : Option (System M) :=
  match σ.main with
  | .freeing i => some {
      game := { σ.game with table := σ.game.table.setPlayer i contents }
      main := .joining (i + 1)
      freed := Function.update σ.freed i true }
  | .joining _ => none

def step (σ : System M) : Event M → Option (System M)
  | .game e => (σ.game.step e).map fun game => { σ with game := game }
  | .join => σ.join
  | .free contents => σ.free contents

/-- The outcomes of the steps. -/
inductive Step (σ : System M) : Event M → System M → Prop
  | game {e : Dice.Event M} {game : Dice.System M} (hs : σ.game.step e = some game) :
    Step σ (.game e) { σ with game := game }
  | join {i : Nat} (hmain : σ.main = .joining i) (hi : i < n) (hpc : σ.game.pc ⟨i, hi⟩ = .finished) :
    Step σ .join { σ with main := .freeing ⟨i, hi⟩ }
  | free {i : Fin n} {contents : Player} (hmain : σ.main = .freeing i) :
    Step σ (.free contents) {
      game := { σ.game with table := σ.game.table.setPlayer i contents }
      main := .joining (i + 1)
      freed := Function.update σ.freed i true }

theorem step_cases {σ σ' : System M} {e : Event M} (h : σ.step e = some σ') : Step σ e σ' := by
  cases e with
  | game e =>
    obtain ⟨game, hs, rfl⟩ := Option.map_eq_some_iff.mp h
    exact .game hs
  | join =>
    simp only [step, join] at h
    split at h
    · next hmain =>
      split at h
      · next hi =>
        split at h <;> cases h
        exact .join hmain hi (by assumption)
      · cases h
    · cases h
  | free contents =>
    simp only [step, free] at h
    split at h <;> cases h
    exact .free (by assumption)

end System

/-- No thread is about to read a record that has been freed. -/
def LiveReads (σ : System M) : Prop :=
  ∀ t j, (σ.game.pc t).reads t j = true → σ.freed j = false

/-- When `players[i]` is freed, no thread has still to look at it for the winner. -/
def Scanned (σ : System M) : Event M → Prop
  | .free _ => ∀ i, σ.main = .freeing i → ∀ t, (σ.game.pc t).toScan i = false
  | _ => True

instance (σ : System M) : ∀ e, Decidable (Scanned σ e)
  | .free _ =>
    match h : σ.main with
    | .joining _ => isTrue (by simp [Scanned, h])
    | .freeing i => decidable_of_iff (∀ t, (σ.game.pc t).toScan i = false) (by simp [Scanned, h])
  | .game _ | .join => isTrue trivial

/-! ### What a step does not read does not matter -/

theorem setPlayer_comm {table : Table n} {i j : Fin n} (hij : j ≠ i) (p q : Player) :
    (table.setPlayer j p).setPlayer i q = (table.setPlayer i q).setPlayer j p := by
  unfold Table.setPlayer
  rw [Function.update_comm hij]

theorem players_setPlayer_of_ne {table : Table n} {i j : Fin n} (hij : i ≠ j) (p : Player) :
    (table.setPlayer j p).players i = table.players i := Function.update_of_ne hij ..

theorem ne_of_not_reads {i : Nat} (hi : i < n) {j : Fin n} (h : (Pc.announcing i).reads j j = false) :
    (⟨i, hi⟩ : Fin n) ≠ j := by
  rintro rfl
  simp [Pc.reads] at h

theorem eliminateStep_setPlayer {table : Table n} {p : Elimination} {t j : Fin n} {q : Player}
    (h : (Pc.eliminating p).reads t j = false) : (table.setPlayer j q).eliminateStep p =
      ((table.eliminateStep p).1.setPlayer j q, (table.eliminateStep p).2) := by
  cases p with
  | decrementing i max => rfl
  | minimum i res =>
    simp only [Table.eliminateStep]
    split
    · next hi =>
      have hne := ne_of_not_reads hi h
      rw [players_setPlayer_of_ne hne]
    · rfl
  | maximum min i res =>
    simp only [Table.eliminateStep]
    split
    · next hi =>
      have hne := ne_of_not_reads hi h
      rw [players_setPlayer_of_ne hne]
    · split <;> rfl
  | removing i max =>
    simp only [Table.eliminateStep]
    split
    · next hi =>
      have hne := ne_of_not_reads hi h
      rw [players_setPlayer_of_ne hne]
      split
      · rw [setPlayer_comm hne.symm]
      · rfl
    · rfl

/-- A step whose thread does not read `players[j]` is the same for all contents of that record. -/
theorem step_setPlayer {σ : Dice.System M} {e : Dice.Event M} {j : Fin n} {q : Player}
    (h : ∀ t, e.actor = some t → (σ.pc t).reads t j = false) :
    ({ σ with table := σ.table.setPlayer j q } : Dice.System M).step e =
      (σ.step e).map fun σ' => { σ' with table := σ'.table.setPlayer j q } := by
  cases e with
  | barrier e =>
    simp only [Dice.System.step, Dice.System.within]
    cases M.internal σ.barrier e <;> rfl
  | enter t =>
    simp only [Dice.System.step, Dice.System.enter]
    cases σ.pc t <;> cases M.call σ.barrier t <;> rfl
  | exit t =>
    simp only [Dice.System.step, Dice.System.exit]
    cases σ.pc t <;> cases M.ret σ.barrier t <;> rfl
  | decide t =>
    simp only [Dice.System.step, Dice.System.decide]
    split <;> rfl
  | leave t =>
    simp only [Dice.System.step, Dice.System.leave]
    split <;> rfl
  | test t =>
    simp only [Dice.System.step, Dice.System.test]
    split
    · show (if σ.table.activePlayers = 1 then _ else _) = _
      split <;> rfl
    · rfl
  | roll t r₁ r₂ =>
    have ht := h t rfl
    simp only [Dice.System.step, Dice.System.roll]
    split
    · next hpc =>
      rw [hpc] at ht
      have hne : t ≠ j := by
        rintro rfl
        simp [Pc.reads] at ht
      rw [players_setPlayer_of_ne hne]
      split
      · rw [setPlayer_comm hne.symm]
        rfl
      · rfl
    · rfl
  | eliminate t =>
    have ht := h t rfl
    simp only [Dice.System.step, Dice.System.eliminate]
    split
    · next p hpc =>
      rw [hpc] at ht
      rw [eliminateStep_setPlayer ht]
      rcases σ.table.eliminateStep p with ⟨table, _ | _⟩ <;> rfl
    · rfl
  | announce t =>
    have ht := h t rfl
    simp only [Dice.System.step, Dice.System.announce]
    split
    · next i hpc =>
      rw [hpc] at ht
      split
      · next hi =>
        have hne := ne_of_not_reads hi ht
        rw [players_setPlayer_of_ne hne]
        split <;> rfl
      · rfl
    · rfl

/-! ### After the last round -/

/-- A thread that has been let go from the last barrier. -/
def OverAt (place : Place) : Pc → Prop
  | .inFirst _ => ∃ serial, place = .released serial
  | .testing _ | .leaving _ | .announcing _ | .finished => place = .outside
  | _ => False

/-- The game is over, and what has been freed is not looked at any more. -/
structure Over (R : Refinement M) (σ : System M) : Prop where
  ok : R.Ok σ.game.barrier
  active : σ.game.table.activePlayers = 1
  place : ∀ t, OverAt (R.places σ.game.barrier t) (σ.game.pc t)
  scanned : ∀ j, σ.freed j = true → ∀ t, (σ.game.pc t).toScan j = false

/-- Nothing has been freed before the first thread has finished. -/
structure Inv (R : Refinement M) (σ : System M) : Prop where
  joined : ∀ i, σ.main = .freeing i → σ.game.pc i = .finished
  phase : Dice.Inv R σ.game ∧ (∀ j, σ.freed j = false) ∨ Over R σ

variable {R : Refinement M} {r : Nat} {σ σ' : System M} {t : Fin n}

theorem Over.of_finished {game : Dice.System M} {main : MainPc n} {freed : Fin n → Bool}
    (h : Dice.Inv R game) (ht : game.pc t = .finished)
    (hfreed : ∀ j, freed j = true → ∀ u, (game.pc u).toScan j = false) : Over R ⟨game, main, freed⟩ := by
  have hleft : (game.pc t).left = true := by rw [ht]; rfl
  rcases h with ⟨r, h⟩ | ⟨x, r, h⟩
  · refine ⟨h.ok, h.of_left hleft, ?_, hfreed⟩
    intro u
    have hat := h.place u
    have hactive := h.of_left hleft
    show OverAt (R.places game.barrier u) (game.pc u)
    cases hpc : game.pc u <;> rw [hpc] at hat
    case rolling => exact hat.2.1 hactive
    case enteringSecond => exact hat.2.1 hactive
    case inSecond => exact hat.2.1 hactive
    all_goals first | exact hat.1 | exact hat
  · rw [h.not_left t] at hleft
    cases hleft

theorem Over.at_pc {p : Pc} (h : Over R σ) (hpc : σ.game.pc t = p) :
    OverAt (R.places σ.game.barrier t) p :=
  hpc ▸ h.place t

/-- A step of `t` that is not one of the barrier, after which it has no more to scan than before. -/
theorem Over.go {p : Pc} (h : Over R σ) (hpc : σ'.game.pc = Function.update σ.game.pc t p)
    (hok : R.Ok σ'.game.barrier) (hactive : σ'.game.table.activePlayers = σ.game.table.activePlayers)
    {place : Place} (hplaces : R.places σ'.game.barrier = Function.update (R.places σ.game.barrier) t place)
    (ht : OverAt place p) (hfreed : σ'.freed = σ.freed)
    (hscan : ∀ j, (σ.game.pc t).toScan j = false → p.toScan j = false) : Over R σ' := by
  refine ⟨hok, hactive.trans h.active, ?_, ?_⟩
  · intro u
    rw [hplaces, hpc]
    by_cases hut : u = t
    · subst hut
      rw [Function.update_self, Function.update_self]
      exact ht
    · rw [Function.update_of_ne hut, Function.update_of_ne hut]
      exact h.place u
  · intro j hj
    rw [hfreed] at hj
    rw [hpc, Function.forall_update_iff σ.game.pc (p := fun _ p => p.toScan j = false)]
    exact ⟨hscan j (h.scanned j hj t), fun u _ => h.scanned j hj u⟩

theorem Over.game (h : Over R σ) (hn : 2 ≤ n) {e : Dice.Event M} {game : Dice.System M}
    (hs : σ.game.step e = some game) : Over R { σ with game := game } := by
  have hself : ∀ t, R.places σ.game.barrier =
      Function.update (R.places σ.game.barrier) t (R.places σ.game.barrier t) :=
    fun t => (Function.update_eq_self ..).symm
  cases Dice.System.step_cases hs with
  | enterFirst hpc | enterSecond hpc | exitSecond hpc | roll hpc | skip hpc | decideSerial hpc
  | decide hpc | eliminate hpc | eliminated hpc => exact (h.at_pc hpc).elim
  | within hb =>
    obtain ⟨hok, hsame | ⟨t, hcomplete⟩⟩ := R.internal _ _ _ h.ok hb
    · exact ⟨hok, h.active, fun u => hsame ▸ h.place u, h.scanned⟩
    · -- nobody waits at a barrier any more
      have hwaiting := (complete?_cases hcomplete).1 ⟨0, by omega⟩
      have hat := h.place ⟨0, by omega⟩
      rw [hwaiting] at hat
      cases hpc : σ.game.pc ⟨0, by omega⟩ <;> rw [hpc] at hat
      case inFirst => obtain ⟨_, hfalse⟩ := hat; cases hfalse
      all_goals first | exact hat.elim | cases hat
  | @exitFirst t res serial b hpc hb =>
    obtain ⟨hok, hreturn⟩ := R.ret _ _ _ _ h.ok hb
    refine h.go rfl hok rfl (return?_cases hreturn).2 rfl rfl ?_
    rw [hpc]
    rcases res with _ | _ | _ <;> exact fun _ hscan => hscan
  | @testLast t res hpc _ =>
    have hat := h.at_pc hpc
    refine h.go rfl h.ok rfl (hself t) hat rfl ?_
    rw [hpc]
    rcases res with _ | _ | _ <;> exact fun _ hscan => hscan
  | testMore hpc hactive => exact absurd h.active hactive
  | @leaveSerial t hpc =>
    have hat := h.at_pc hpc
    refine h.go rfl h.ok rfl (hself t) hat rfl ?_
    rw [hpc]
    intro _ hscan
    cases hscan
  | @leave t hpc =>
    have hat := h.at_pc hpc
    exact h.go rfl h.ok rfl (hself t) hat rfl (fun _ _ => rfl)
  | @announce t _ hpc _ _ =>
    have hat := h.at_pc hpc
    exact h.go rfl h.ok rfl (hself t) hat rfl (fun _ _ => rfl)
  | @scan t i hpc _ _ =>
    have hat := h.at_pc hpc
    refine h.go rfl h.ok rfl (hself t) hat rfl ?_
    intro j hscan
    rw [hpc] at hscan
    simp only [Pc.toScan, decide_eq_false_iff_not] at hscan ⊢
    omega
  | @noWinner t _ hpc _ =>
    have hat := h.at_pc hpc
    exact h.go rfl h.ok rfl (hself t) hat rfl (fun _ _ => rfl)

/-- Finished threads take no step. -/
theorem finished_of_step {game game' : Dice.System M} {e : Dice.Event M} (ht : game.pc t = .finished)
    (hs : game.step e = some game') : game'.pc t = .finished := by
  have hgo : ∀ u p, game.pc u ≠ .finished → game.go u p t = .finished := by
    intro u p hu
    have htu : t ≠ u := by
      rintro rfl
      exact hu ht
    rw [Dice.System.go, Function.update_of_ne htu]
    exact ht
  cases Dice.System.step_cases hs with
  | within _ => exact ht
  | _ => exact hgo _ _ (by simp_all)

theorem Inv.step (h : Inv R σ) (hn : 2 ≤ n) {e : Event M} (hC : Scanned σ e)
    (hs : σ.step e = some σ') : Inv R σ' := by
  obtain ⟨hjoined, hphase⟩ := h
  cases System.step_cases hs with
  | game hgame =>
    refine ⟨fun i hi => finished_of_step (hjoined i hi) hgame, ?_⟩
    rcases hphase with ⟨hinv, hfreed⟩ | hover
    · exact .inl ⟨hinv.step hgame, hfreed⟩
    · exact .inr (hover.game hn hgame)
  | join hmain hi hpc =>
    refine ⟨fun i hi => ?_, ?_⟩
    · cases hi
      exact hpc
    · rcases hphase with hphase | ⟨hok, hactive, hplace, hscanned⟩
      · exact .inl hphase
      · exact .inr ⟨hok, hactive, hplace, hscanned⟩
  | @free i contents hmain =>
    refine ⟨nofun, .inr ?_⟩
    have hover : Over R { σ with freed := Function.update σ.freed i true } := by
      have hscan : ∀ j, Function.update σ.freed i true j = true →
          (σ.freed j = true ∨ j = i) := by
        intro j hj
        by_cases hji : j = i
        · exact .inr hji
        · exact .inl (by rwa [Function.update_of_ne hji] at hj)
      rcases hphase with ⟨hinv, hfreed⟩ | hover
      · refine Over.of_finished hinv (hjoined i hmain) ?_
        intro j hj u
        rcases hscan j hj with hj | rfl
        · rw [hfreed j] at hj
          cases hj
        · exact hC j hmain u
      · refine ⟨hover.ok, hover.active, hover.place, ?_⟩
        intro j hj u
        rcases hscan j hj with hj | rfl
        · exact hover.scanned j hj u
        · exact hC j hmain u
    exact ⟨hover.ok, hover.active, hover.place, hover.scanned⟩

theorem Inv.liveReads (h : Inv R σ) : LiveReads σ := by
  intro t j hreads
  rcases h.phase with ⟨-, hfreed⟩ | hover
  · exact hfreed j
  · by_contra hfreed
    have hscan := hover.scanned j (by simpa using hfreed) t
    have hat := hover.place t
    cases hpc : σ.game.pc t <;> rw [hpc] at hreads hscan hat
    case announcing i =>
      simp only [Pc.reads, Pc.toScan, decide_eq_true_eq, decide_eq_false_iff_not] at hreads hscan
      omega
    all_goals first | exact hat.elim | cases hreads

theorem liveReads_of_meets (v : Variant) (hn : 2 ≤ n) (hmax : (n : Int) ≤ INT_MAX)
    (events : List (Event (v.machine n)))
    (hC : Meets System.step Scanned (System.start (v.machine n)) events) :
    Throughout System.step LiveReads (System.start (v.machine n)) events := by
  have hstart : Inv (v.refinement hn hmax) (System.start (v.machine n)) :=
    ⟨nofun, .inl ⟨.start (by omega), fun _ => rfl⟩⟩
  exact throughout_of_meets (fun _ _ _ h hC hs => h.step hn hC hs) (fun _ h => h.liveReads) hstart hC

/-- The winner is announced before the first record is freed. -/
def freedLate (a b : Fin 2) : List (Event (Variant.posix.machine 2)) :=
  (oneRound a b).map .game ++ [.join, .free ⟨0, true⟩, .join, .free ⟨0, true⟩]

theorem liveReads_freedLate : ∃ σ,
    run System.step (System.start (Variant.posix.machine 2)) (freedLate 0 1) = some σ ∧
    (∀ j, σ.freed j = true) ∧
    Throughout System.step LiveReads (System.start (Variant.posix.machine 2)) (freedLate 0 1) := by
  have hfreed : (run System.step (System.start (Variant.posix.machine 2)) (freedLate 0 1)).map
      (fun σ => (σ.freed 0, σ.freed 1)) = some (true, true) := by decide +kernel
  obtain ⟨σ, hr, hfreed⟩ := Option.map_eq_some_iff.mp hfreed
  obtain ⟨h0, h1⟩ := Prod.mk.inj hfreed
  exact ⟨σ, hr, Fin.forall_fin_two.mpr ⟨h0, h1⟩,
    liveReads_of_meets .posix (by decide) (by decide) _ (by decide +kernel)⟩

/-- Thread `a` has finished and `players[0]` is freed before thread `b`, which is to announce the winner,
looks at it. -/
def freedEarly (a b : Fin 2) : List (Event (Variant.posix.machine 2)) :=
  ((oneRound a b).take 34).map .game ++ [.join, .free ⟨0, false⟩, .game (.leave b)]

theorem not_liveReads_freedEarly : ∃ σ,
    run System.step (System.start (Variant.posix.machine 2)) (freedEarly 0 1) = some σ ∧
    σ.game.pc 1 = .announcing 0 ∧ σ.freed 0 = true ∧ ¬ LiveReads σ := by
  have hplaces : (run System.step (System.start (Variant.posix.machine 2)) (freedEarly 0 1)).map
      (fun σ => (σ.game.pc 1, σ.freed 0)) = some (.announcing 0, true) := by decide +kernel
  obtain ⟨σ, hr, hplaces⟩ := Option.map_eq_some_iff.mp hplaces
  obtain ⟨hpc, hfreed⟩ := Prod.mk.inj hplaces
  refine ⟨σ, hr, hpc, hfreed, fun hlive => ?_⟩
  have hnot := hlive 1 0 (by rw [hpc]; rfl)
  rw [hfreed] at hnot
  cases hnot

end OsExercises.Dice.Cleanup
