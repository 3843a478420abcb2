import OsExercises.Lib.CInt
import OsExercises.Lib.Population

/-!
# Eliminating the players with the highest result

The table that the players of `src/exercise09/task_3/task_3.c` and `task_2.c` share, and
`eliminate_players` as the steps of the thread that executes it (`eliminateStep`): the loops of
`min_result` and `max_result` and the loop that removes the players whose result is the maximum. A
player whose result is the minimum is left, so that somebody always plays on (`Elimination.Ok.step`).
-/

namespace OsExercises.Dice

/-- `player_t` without its thread. -/
structure Player where
  result : Int
  playing : Bool
deriving DecidableEq

/-- `players` and `*active_players` -/
structure Table (n : Nat) where
  players : Fin n → Player
  activePlayers : Int

/-- The sum of two dice, for the two numbers that `random` returns. -/
def roll (r₁ r₂ : Nat) : Int := (r₁ % 6 + r₂ % 6 + 2 : Nat)

/-- Where a thread is in `eliminate_players`, with the local variables. -/
inductive Elimination where
  /-- At the condition of the loop in `min_result`. -/
  | minimum (i : Nat) (res : Int)
  /-- At the condition of the loop in `max_result`. -/
  | maximum (min : Int) (i : Nat) (res : Int)
  /-- At the condition of the loop that removes players. -/
  | removing (i : Nat) (max : Int)
  /-- After `players[i]->playing = false`. -/
  | decrementing (i : Nat) (max : Int)
deriving DecidableEq

namespace Table

variable {n : Nat} (table : Table n)

def setPlayer (i : Fin n) (p : Player) : Table n :=
  { table with players := Function.update table.players i p }

/-- The table after the step, and where the thread is then, `none` when `eliminate_players` has
returned. -/
def eliminateStep : Elimination → Table n × Option Elimination
  | .minimum i res =>
    if h : i < n then
      let p := table.players ⟨i, h⟩
      (table, some (.minimum (i + 1) (if p.playing = true ∧ p.result < res then p.result else res)))
    else (table, some (.maximum res 0 INT_MIN))
  | .maximum min i res =>
    if h : i < n then
      let p := table.players ⟨i, h⟩
      (table, some (.maximum min (i + 1) (if p.playing = true ∧ p.result > res then p.result else res)))
    else if min = res then (table, none)
    else (table, some (.removing 0 res))
  | .removing i max =>
    if h : i < n then
      let p := table.players ⟨i, h⟩
      if p.playing = true ∧ p.result = max then
        (table.setPlayer ⟨i, h⟩ { p with playing := false }, some (.decrementing i max))
      else (table, some (.removing (i + 1) max))
    else (table, none)
  | .decrementing i max =>
    ({ table with activePlayers := table.activePlayers - 1 }, some (.removing (i + 1) max))

/-! ### The players that are left -/

def playingCount : Nat := population Player.playing table.players

/-- `active_players` counts the players that are playing, of whom there is one. -/
structure Ok : Prop where
  active : table.activePlayers = table.playingCount
  someone : ∃ i, (table.players i).playing = true

/-- Who is playing has the sum of two dice. -/
def Rolled (table : Table n) : Prop :=
  ∀ i, (table.players i).playing = true → 2 ≤ (table.players i).result ∧ (table.players i).result ≤ 12

end Table

theorem roll_mem (r₁ r₂ : Nat) : 2 ≤ roll r₁ r₂ ∧ roll r₁ r₂ ≤ 12 := by
  unfold roll
  omega

section Elimination

variable {n : Nat} {table table' : Table n} {next : Option Elimination}

/-- What holds at each place of `eliminate_players`: somebody who is playing has the minimum, hence
not the maximum if they differ. -/
def Elimination.Ok (table : Table n) : Elimination → Prop
  | .minimum i res => table.Ok ∧ table.Rolled ∧
    (res = INT_MAX ∧ (∀ j : Fin n, j.1 < i → (table.players j).playing = false) ∨
      ∃ j, (table.players j).playing = true ∧ (table.players j).result = res)
  | .maximum min _ _ => table.Ok ∧ ∃ j, (table.players j).playing = true ∧ (table.players j).result = min
  | .removing _ max => table.Ok ∧ ∃ j, (table.players j).playing = true ∧ (table.players j).result ≠ max
  | .decrementing _ max => table.activePlayers = table.playingCount + 1 ∧
    ∃ j, (table.players j).playing = true ∧ (table.players j).result ≠ max

theorem Elimination.Ok.start (h : table.Ok) (hrolled : table.Rolled) :
    (Elimination.minimum 0 INT_MAX).Ok table :=
  ⟨h, hrolled, .inl ⟨rfl, fun _ hj => absurd hj (Nat.not_lt_zero _)⟩⟩

theorem Elimination.Ok.minimum {i : Nat} {res : Int} (h : (Elimination.minimum i res).Ok table)
    (hi : i < n) :
    (Elimination.minimum (i + 1) (if (table.players ⟨i, hi⟩).playing = true ∧
      (table.players ⟨i, hi⟩).result < res then (table.players ⟨i, hi⟩).result else res)).Ok table := by
  obtain ⟨htable, hrolled, hres⟩ := h
  refine ⟨htable, hrolled, ?_⟩
  split
  · next hlt => exact .inr ⟨⟨i, hi⟩, hlt.1, rfl⟩
  · next hge =>
    rcases hres with ⟨rfl, hbefore⟩ | hres
    · refine .inl ⟨rfl, ?_⟩
      intro j hj
      by_cases hji : (j : Nat) < i
      · exact hbefore j hji
      · obtain rfl : j = ⟨i, hi⟩ := Fin.ext (by simp; omega)
        by_contra hplaying
        have hplays : (table.players ⟨i, hi⟩).playing = true := by simpa using hplaying
        refine hge ⟨hplays, ?_⟩
        have hle := (hrolled _ hplays).2
        unfold INT_MAX
        omega
    · exact .inr hres

theorem playingCount_remove {i : Fin n} {p : Player} (hplaying : (table.players i).playing = true)
    (hp : p.playing = false) : (table.setPlayer i p).playingCount + 1 = table.playingCount := by
  have hpopulation := population_update Player.playing table.players i p
  rw [hplaying, hp] at hpopulation
  exact hpopulation

theorem Elimination.Ok.remove {i : Nat} {max : Int} (h : (Elimination.removing i max).Ok table)
    (hi : i < n) (hplaying : (table.players ⟨i, hi⟩).playing = true)
    (hresult : (table.players ⟨i, hi⟩).result = max) :
    (Elimination.decrementing i max).Ok
      (table.setPlayer ⟨i, hi⟩ { table.players ⟨i, hi⟩ with playing := false }) := by
  obtain ⟨⟨hactive, -⟩, j, hj, hne⟩ := h
  have hcount := playingCount_remove (p := { table.players ⟨i, hi⟩ with playing := false }) hplaying rfl
  have hji : j ≠ ⟨i, hi⟩ := by
    rintro rfl
    exact hne hresult
  refine ⟨?_, j, ?_⟩
  · show table.activePlayers = _
    rw [hactive, ← hcount]
    push_cast
    rfl
  · show (Function.update table.players ⟨i, hi⟩ _ j).playing = true ∧
      (Function.update table.players ⟨i, hi⟩ _ j).result ≠ max
    rw [Function.update_of_ne hji]
    exact ⟨hj, hne⟩

theorem Elimination.Ok.decrement {i : Nat} {max : Int} (h : (Elimination.decrementing i max).Ok table) :
    (Elimination.removing (i + 1) max).Ok { table with activePlayers := table.activePlayers - 1 } := by
  obtain ⟨hactive, j, hj, hne⟩ := h
  refine ⟨⟨?_, j, hj⟩, j, hj, hne⟩
  show table.activePlayers - 1 = table.playingCount
  omega

/-- The loop of `min_result` has seen somebody who is playing. -/
theorem Elimination.Ok.minimum_done {i : Nat} {res max : Int} (h : (Elimination.minimum i res).Ok table)
    (hi : ¬ i < n) : (Elimination.maximum res 0 max).Ok table := by
  obtain ⟨htable, -, ⟨-, hnobody⟩ | hres⟩ := h
  · obtain ⟨j, hj⟩ := htable.someone
    rw [hnobody j (by omega)] at hj
    cases hj
  · exact ⟨htable, hres⟩

theorem Elimination.Ok.step {p : Elimination} (h : p.Ok table)
    (hs : table.eliminateStep p = (table', next)) :
    match next with
    | some p' => p'.Ok table'
    | none => table'.Ok := by
  cases p with
  | minimum i res =>
    simp only [Table.eliminateStep] at hs
    split at hs <;> cases hs
    · next hi => exact h.minimum hi
    · next hi => exact h.minimum_done hi
  | maximum min i res =>
    simp only [Table.eliminateStep] at hs
    split at hs
    · cases hs
      exact h
    · split at hs <;> cases hs
      · exact h.1
      · next hne =>
        obtain ⟨htable, j, hj, rfl⟩ := h
        exact ⟨htable, j, hj, hne⟩
  | removing i max =>
    simp only [Table.eliminateStep] at hs
    split at hs
    · next hi =>
      split at hs <;> cases hs
      · next hmax => exact h.remove hi hmax.1 hmax.2
      · exact h
    · cases hs
      exact h.1
  | decrementing i max =>
    cases hs
    exact h.decrement

end Elimination
end OsExercises.Dice
