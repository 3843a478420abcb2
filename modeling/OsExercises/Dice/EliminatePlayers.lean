import OsExercises.Dice.Eliminate
import OsExercises.Lib.Loop

/-!
# A call of `eliminate_players`

`eliminatePlayers` runs the steps of `Eliminate` to the end of the function, with nothing in between,
as it is called from one thread after the second barrier. Whatever the results are, stale ones of
eliminated players included, it removes the players with the highest result among those who are
playing, or nobody if these all have the same result (`eliminatePlayers_spec`).
-/

namespace OsExercises.Dice

variable {n : Nat} {t t' table : Table n} {i : Nat} {min max res : Int}

namespace Table

def eliminatePlayers (table : Table n) : Option (Table n) :=
  (whileLoop (fun x => x.2.isSome) (fun x => x.2.map x.1.eliminateStep) (4 * n + 5)
    (table, some (.minimum 0 INT_MAX))).map Prod.fst

/-- Player `i` is playing and has the result `r`. -/
def Plays (t : Table n) (i : Fin n) (r : Int) : Prop :=
  (t.players i).playing = true ∧ (t.players i).result = r

/-- The results are values of an `int`. -/
def IntResults (t : Table n) : Prop :=
  ∀ i, INT_MIN ≤ (t.players i).result ∧ (t.players i).result ≤ INT_MAX

def AllSame (t : Table n) : Prop := ∀ i j r r', t.Plays i r → t.Plays j r' → r = r'

/-- What `eliminate_players` has done to `t` when the table is `t'`. -/
structure Eliminated (t t' : Table n) : Prop where
  results : ∀ i, (t'.players i).result = (t.players i).result
  out : ∀ i, (t.players i).playing = false → (t'.players i).playing = false
  same : t.AllSame → t' = t
  highest : ¬ t.AllSame → ∀ i r, t.Plays i r →
    ((t'.players i).playing = false ↔ ∀ j r', t.Plays j r' → r' ≤ r)
  ok : t'.Ok

/-- `min` is the least result of a player who is playing. -/
structure IsMin (t : Table n) (min : Int) : Prop where
  attained : ∃ i, t.Plays i min
  le : ∀ i r, t.Plays i r → min ≤ r

structure IsMax (t : Table n) (max : Int) : Prop where
  attained : ∃ i, t.Plays i max
  le : ∀ i r, t.Plays i r → r ≤ max

/-- The players when the loop that removes those with the result `max` has come to `i`. -/
def removed (t : Table n) (max : Int) (i : Nat) (j : Fin n) : Player :=
  if j.1 < i ∧ (t.players j).playing = true ∧ (t.players j).result = max then
    { t.players j with playing := false }
  else t.players j

end Table

/-! ### The invariant of the three loops -/

/-- What holds at each place of the call when it started with the table `t`. -/
def Elimination.Sees (t table : Table n) : Elimination → Prop
  | .minimum i res => table = t ∧ (∀ j r, t.Plays j r → j.1 < i → res ≤ r) ∧
      (res = INT_MAX ∨ ∃ j, t.Plays j res)
  | .maximum min i res => table = t ∧ t.IsMin min ∧ (∀ j r, t.Plays j r → j.1 < i → r ≤ res) ∧
      (res = INT_MIN ∨ ∃ j, t.Plays j res)
  | .removing i max => t.IsMax max ∧ ¬ t.AllSame ∧ table.players = t.removed max i ∧
      table.activePlayers = table.playingCount
  | .decrementing i max => t.IsMax max ∧ ¬ t.AllSame ∧ table.players = t.removed max (i + 1) ∧
      table.activePlayers = table.playingCount + 1 ∧ i < n

/-- How many steps of the call are left at most, behind the next one. -/
def Elimination.left (n : Nat) : Elimination → Nat
  | .minimum i _ => n - i + 1 + (n + 1 + (2 * n + 1))
  | .maximum _ i _ => n - i + 1 + (2 * n + 1)
  | .removing i _ => 2 * (n - i) + 1
  | .decrementing i _ => 2 * (n - i)

namespace Table

@[simp] theorem removed_zero (t : Table n) (max : Int) : t.removed max 0 = t.players := by
  funext j
  simp [removed]

theorem removed_of_le (t : Table n) (max : Int) {j : Fin n} (h : i ≤ j.1) :
    t.removed max i j = t.players j := if_neg fun hj => by omega

theorem removed_succ_of_ne {j : Fin n} (h : j.1 ≠ i) : t.removed max (i + 1) j = t.removed max i j := by
  have hlt : j.1 < i + 1 ↔ j.1 < i := by omega
  simp only [removed, hlt]

theorem removed_succ_of_plays {hi : i < n} (h : t.Plays ⟨i, hi⟩ max) :
    Function.update (t.removed max i) ⟨i, hi⟩ { t.players ⟨i, hi⟩ with playing := false } =
      t.removed max (i + 1) := by
  funext j
  by_cases hj : j = ⟨i, hi⟩
  · subst hj
    rw [Function.update_self, removed, if_pos ⟨Nat.lt_succ_self i, h.1, h.2⟩]
  · rw [Function.update_of_ne hj, removed_succ_of_ne fun hji => hj (Fin.ext hji)]

theorem removed_succ_of_not_plays {hi : i < n} (h : ¬ t.Plays ⟨i, hi⟩ max) :
    t.removed max (i + 1) = t.removed max i := by
  funext j
  by_cases hj : j = ⟨i, hi⟩
  · subst hj
    have hsame : t.removed max i ⟨i, hi⟩ = t.players ⟨i, hi⟩ := removed_of_le t max (Nat.le_refl i)
    rw [hsame, removed, if_neg fun hplays => h hplays.2]
  · exact removed_succ_of_ne fun hji => hj (Fin.ext hji)

/-- The scan for the least result ends with the minimum: somebody is playing. -/
theorem Ok.isMin (hok : t.Ok) (hint : t.IntResults) (hle : ∀ j r, t.Plays j r → res ≤ r)
    (hres : res = INT_MAX ∨ ∃ j, t.Plays j res) : t.IsMin res := by
  refine ⟨?_, hle⟩
  rcases hres with rfl | hres
  · obtain ⟨j, hj⟩ := hok.someone
    have hge := hle j _ ⟨hj, rfl⟩
    exact ⟨j, hj, le_antisymm (hint j).2 hge⟩
  · exact hres

theorem Ok.isMax (hok : t.Ok) (hint : t.IntResults) (hle : ∀ j r, t.Plays j r → r ≤ res)
    (hres : res = INT_MIN ∨ ∃ j, t.Plays j res) : t.IsMax res := by
  refine ⟨?_, hle⟩
  rcases hres with rfl | hres
  · obtain ⟨j, hj⟩ := hok.someone
    have hge := hle j _ ⟨hj, rfl⟩
    exact ⟨j, hj, le_antisymm hge (hint j).1⟩
  · exact hres

theorem allSame_iff (hmin : t.IsMin min) (hmax : t.IsMax max) : t.AllSame ↔ min = max := by
  constructor
  · intro hsame
    obtain ⟨i, hi⟩ := hmin.attained
    obtain ⟨j, hj⟩ := hmax.attained
    exact hsame i j min max hi hj
  · rintro rfl i j r r' hi hj
    have h1 := hmin.le i r hi
    have h2 := hmax.le i r hi
    have h3 := hmin.le j r' hj
    have h4 := hmax.le j r' hj
    omega

end Table

/-! ### One step -/

namespace Elimination.Sees

theorem start : (Elimination.minimum 0 INT_MAX).Sees t t :=
  ⟨rfl, fun _ _ _ hj => absurd hj (Nat.not_lt_zero _), .inl rfl⟩

theorem minimum (h : (Elimination.minimum i res).Sees t table) (hi : i < n) :
    (Elimination.minimum (i + 1) (if (table.players ⟨i, hi⟩).playing = true ∧
      (table.players ⟨i, hi⟩).result < res then (table.players ⟨i, hi⟩).result else res)).Sees t table := by
  obtain ⟨rfl, hle, hres⟩ := h
  have hcases : ∀ j : Fin n, j.1 < i + 1 → j.1 < i ∨ j = ⟨i, hi⟩ := fun j hj =>
    (Nat.lt_succ_iff_lt_or_eq.mp hj).imp_right Fin.ext
  refine ⟨rfl, fun j r hj hlt => ?_, ?_⟩
  · rcases hcases j hlt with hlt | rfl
    · have hjr := hle j r hj hlt
      split <;> omega
    · obtain ⟨hplays, rfl⟩ := hj
      split
      · exact le_refl _
      · next hnot => exact not_lt.mp fun hlt => hnot ⟨hplays, hlt⟩
  · split
    · next hlt => exact .inr ⟨⟨i, hi⟩, hlt.1, rfl⟩
    · exact hres

theorem maximum (h : (Elimination.maximum min i res).Sees t table) (hi : i < n) :
    (Elimination.maximum min (i + 1) (if (table.players ⟨i, hi⟩).playing = true ∧
      (table.players ⟨i, hi⟩).result > res then (table.players ⟨i, hi⟩).result else res)).Sees t table := by
  obtain ⟨rfl, hmin, hle, hres⟩ := h
  have hcases : ∀ j : Fin n, j.1 < i + 1 → j.1 < i ∨ j = ⟨i, hi⟩ := fun j hj =>
    (Nat.lt_succ_iff_lt_or_eq.mp hj).imp_right Fin.ext
  refine ⟨rfl, hmin, fun j r hj hlt => ?_, ?_⟩
  · rcases hcases j hlt with hlt | rfl
    · have hjr := hle j r hj hlt
      split <;> omega
    · obtain ⟨hplays, rfl⟩ := hj
      split
      · exact le_refl _
      · next hnot => exact not_lt.mp fun hlt => hnot ⟨hplays, hlt⟩
  · split
    · next hlt => exact .inr ⟨⟨i, hi⟩, hlt.1, rfl⟩
    · exact hres

theorem remove (h : (Elimination.removing i max).Sees t table) (hi : i < n)
    (hplays : table.Plays ⟨i, hi⟩ max) : (Elimination.decrementing i max).Sees t
      (table.setPlayer ⟨i, hi⟩ { table.players ⟨i, hi⟩ with playing := false }) := by
  obtain ⟨hmax, hdiffer, hplayers, hactive⟩ := h
  have hsame : table.players ⟨i, hi⟩ = t.players ⟨i, hi⟩ := by
    rw [hplayers, Table.removed_of_le t max (Nat.le_refl i)]
  have hcount := playingCount_remove (p := { table.players ⟨i, hi⟩ with playing := false }) hplays.1 rfl
  refine ⟨hmax, hdiffer, ?_, ?_, hi⟩
  · show Function.update table.players ⟨i, hi⟩ _ = _
    rw [Table.Plays, hsame] at hplays
    rw [hsame, hplayers, Table.removed_succ_of_plays hplays]
  · show table.activePlayers = _
    rw [hactive, ← hcount]
    push_cast
    rfl

theorem keep (h : (Elimination.removing i max).Sees t table) (hi : i < n)
    (hplays : ¬ table.Plays ⟨i, hi⟩ max) : (Elimination.removing (i + 1) max).Sees t table := by
  obtain ⟨hmax, hdiffer, hplayers, hactive⟩ := h
  refine ⟨hmax, hdiffer, ?_, hactive⟩
  rw [Table.Plays, hplayers, Table.removed_of_le t max (Nat.le_refl i)] at hplays
  rw [hplayers, Table.removed_succ_of_not_plays hplays]

/-- The loop has removed the players with the highest result; one with a lower result is left. -/
theorem eliminated (h : (Elimination.removing i max).Sees t table) (hi : ¬ i < n) :
    t.Eliminated table := by
  obtain ⟨hmax, hdiffer, hplayers, hactive⟩ := h
  have hplayer : ∀ j, table.players j = if (t.players j).playing = true ∧ (t.players j).result = max then
      { t.players j with playing := false } else t.players j := by
    intro j
    have hlt : j.1 < i := by omega
    simp only [hplayers, Table.removed, hlt, true_and]
  refine ⟨fun j => ?_, fun j hj => ?_, fun hsame => absurd hsame hdiffer, fun _ j r hj => ?_, hactive, ?_⟩
  · rw [hplayer]
    split <;> rfl
  · rw [hplayer]
    split
    · rfl
    · exact hj
  · obtain ⟨hplays, rfl⟩ := hj
    rw [hplayer]
    by_cases heq : (t.players j).result = max
    · rw [if_pos ⟨hplays, heq⟩, heq]
      exact iff_of_true rfl hmax.le
    · rw [if_neg fun hboth => heq hboth.2, hplays]
      refine iff_of_false (by simp) fun hle => heq ?_
      obtain ⟨k, hk⟩ := hmax.attained
      exact le_antisymm (hmax.le j _ ⟨hplays, rfl⟩) (hle k max hk)
  · obtain ⟨j, hj⟩ : ∃ j, (t.players j).playing = true ∧ (t.players j).result ≠ max := by
      by_contra hnone
      simp only [not_exists, not_and, not_not] at hnone
      refine hdiffer fun j k r r' hj hk => ?_
      rw [← hj.2, ← hk.2, hnone j hj.1, hnone k hk.1]
    refine ⟨j, ?_⟩
    rw [hplayer, if_neg fun hboth => hj.2 hboth.2]
    exact hj.1

/-- The call that leaves everything as it was. -/
theorem unchanged (hok : t.Ok) (hsame : t.AllSame) : t.Eliminated t :=
  ⟨fun _ => rfl, fun _ => id, fun _ => rfl, fun hdiffer => absurd hsame hdiffer, hok⟩

end Elimination.Sees

/-! ### The call -/

def CallInv (t : Table n) : Table n × Option Elimination → Prop
  | (table, some p) => p.Sees t table
  | (table, none) => t.Eliminated table

def stepsLeft : Table n × Option Elimination → Nat
  | (_, some p) => p.left n + 1
  | (_, none) => 0

theorem CallInv.step {p : Elimination} (hok : t.Ok) (hint : t.IntResults) (h : p.Sees t table) :
    CallInv t (table.eliminateStep p) ∧
      stepsLeft (table.eliminateStep p) < stepsLeft (table, some p) := by
  cases p with
  | minimum i res =>
    rw [Table.eliminateStep]
    split
    · next hi => exact ⟨h.minimum hi, by simp only [stepsLeft, Elimination.left]; omega⟩
    · next hi =>
      obtain ⟨rfl, hle, hres⟩ := h
      have hmin := hok.isMin hint (fun j r hj => hle j r hj (by omega)) hres
      refine ⟨⟨rfl, hmin, fun _ _ _ hj => absurd hj (Nat.not_lt_zero _), .inl rfl⟩, ?_⟩
      simp only [stepsLeft, Elimination.left]
      omega
  | maximum min i res =>
    rw [Table.eliminateStep]
    split
    · next hi => exact ⟨h.maximum hi, by simp only [stepsLeft, Elimination.left]; omega⟩
    · next hi =>
      obtain ⟨rfl, hmin, hle, hres⟩ := h
      have hmax := hok.isMax hint (fun j r hj => hle j r hj (by omega)) hres
      have hsame := Table.allSame_iff hmin hmax
      split
      · next heq => exact ⟨Elimination.Sees.unchanged hok (hsame.mpr heq), Nat.succ_pos _⟩
      · next hne =>
        refine ⟨⟨hmax, fun hall => hne (hsame.mp hall), (Table.removed_zero _ _).symm, hok.active⟩, ?_⟩
        simp only [stepsLeft, Elimination.left]
        omega
  | removing i max =>
    simp only [Table.eliminateStep]
    split
    · next hi =>
      split
      · next hplays => exact ⟨h.remove hi hplays, by simp only [stepsLeft, Elimination.left]; omega⟩
      · next hplays => exact ⟨h.keep hi hplays, by simp only [stepsLeft, Elimination.left]; omega⟩
    · next hi => exact ⟨h.eliminated hi, Nat.succ_pos _⟩
  | decrementing i max =>
    obtain ⟨hmax, hdiffer, hplayers, hactive, hi⟩ := h
    refine ⟨⟨hmax, hdiffer, hplayers, ?_⟩, ?_⟩
    · show table.activePlayers - 1 = table.playingCount
      omega
    · simp only [Table.eliminateStep, stepsLeft, Elimination.left]
      omega

theorem eliminatePlayers_spec (t : Table n) (hok : t.Ok) (hint : t.IntResults) :
    ∃ t', t.eliminatePlayers = some t' ∧ t.Eliminated t' := by
  have hstep : ∀ x, CallInv t x → x.2.isSome = true → ∃ y, x.2.map x.1.eliminateStep = some y ∧
      CallInv t y ∧ stepsLeft y < stepsLeft x := by
    rintro ⟨table, _ | p⟩ h hgo
    · cases hgo
    · exact ⟨_, rfl, CallInv.step hok hint h⟩
  have hfuel : stepsLeft (t, some (.minimum 0 INT_MAX)) < 4 * n + 5 := by
    simp only [stepsLeft, Elimination.left]
    omega
  have hstart : CallInv t (t, some (.minimum 0 INT_MAX)) := Elimination.Sees.start
  obtain ⟨⟨t', next⟩, hloop, hinv, hdone⟩ := whileLoop_total stepsLeft hstep hstart hfuel
  obtain rfl : next = none := by simpa using hdone
  exact ⟨t', by rw [Table.eliminatePlayers, hloop]; rfl, hinv⟩

/-- Player 2 has been eliminated with the highest result of all. -/
def staleTable : Table 3 where
  players i := if i.1 = 0 then ⟨5, true⟩ else if i.1 = 1 then ⟨9, true⟩ else ⟨12, false⟩
  activePlayers := 2

theorem eliminatePlayers_staleTable :
    ∃ t', staleTable.eliminatePlayers = some t' ∧ staleTable.Eliminated t' :=
  eliminatePlayers_spec staleTable ⟨by decide, 0, by decide⟩ (by unfold Table.IntResults; decide)

end OsExercises.Dice
