import OsExercises.Dice.Agreement
import OsExercises.Dice.EliminatePlayers

/-!
# The game behind the threads

`Played` is the dice game without threads: in each round everybody who plays rolls, then the players with
the highest result are eliminated, unless all have the same. The threads play this game: with the same
random numbers every schedule and either barrier end after the same number of rounds, with the same table
and the same winner (`sameOutcome`).
-/

namespace OsExercises.Dice
open CyclicBarrier Transition

variable {n : Nat}

/-! ### The game -/

def Player.rolled (p : Player) (r : Nat × Nat) : Player :=
  if p.playing = true then { p with result := roll r.1 r.2 } else p

namespace Table

def fresh (n : Nat) : Table n := ⟨fun _ => ⟨0, true⟩, n⟩

def rollAll (t : Table n) (dice : Fin n → Nat × Nat) : Table n :=
  { t with players := fun i => (t.players i).rolled (dice i) }

end Table

/-- The table after some rounds, in which the players roll what `dice` says. -/
inductive Played (dice : Nat → Fin n → Nat × Nat) : Nat → Table n → Prop
  | start : Played dice 0 (.fresh n)
  | round {k : Nat} {t t' : Table n} (h : Played dice k t) (helim : (t.rollAll (dice k)).Eliminated t') :
    Played dice (k + 1) t'

/-- There has been more than one player before each of the first `k` rounds. -/
def Unfinished (dice : Nat → Fin n → Nat × Nat) (k : Nat) : Prop :=
  ∀ j < k, ∀ t, Played dice j t → t.activePlayers ≠ 1

/-- The game ends after `r` rounds with the table `t` and the winner `w`. -/
structure Outcome (dice : Nat → Fin n → Nat × Nat) (r : Nat) (t : Table n) (w : Fin n) : Prop where
  unfinished : Unfinished dice r
  played : Played dice r t
  decided : t.activePlayers = 1
  winner : (t.players w).playing = true

variable {dice : Nat → Fin n → Nat × Nat} {t t' : Table n} {k r : Nat} {w : Fin n}

theorem Player.rolled_playing (p : Player) (r : Nat × Nat) : (p.rolled r).playing = p.playing := by
  unfold Player.rolled
  split <;> rfl

theorem Table.Ok.rollAll (h : t.Ok) (dice : Fin n → Nat × Nat) : (t.rollAll dice).Ok := by
  have hplaying : ∀ i, ((t.rollAll dice).players i).playing = (t.players i).playing :=
    fun i => Player.rolled_playing _ _
  obtain ⟨i, hi⟩ := h.someone
  refine ⟨h.active.trans (congrArg Nat.cast ?_), i, (hplaying i).trans hi⟩
  unfold Table.playingCount population
  exact Finset.sum_congr rfl fun u _ => congrArg Bool.toNat (hplaying u).symm

theorem Table.IntResults.rollAll (h : t.IntResults) (dice : Fin n → Nat × Nat) :
    (t.rollAll dice).IntResults := by
  intro i
  have hroll := roll_mem (dice i).1 (dice i).2
  show INT_MIN ≤ ((t.players i).rolled (dice i)).result ∧
    ((t.players i).rolled (dice i)).result ≤ INT_MAX
  unfold Player.rolled
  split
  · show INT_MIN ≤ Dice.roll _ _ ∧ Dice.roll _ _ ≤ INT_MAX
    unfold INT_MIN INT_MAX
    omega
  · exact h i

/-- A call of `eliminate_players` has one result only. -/
theorem Table.Eliminated.unique {t₁ t₂ : Table n} (h₁ : t.Eliminated t₁) (h₂ : t.Eliminated t₂) :
    t₁ = t₂ := by
  have hplaying : ∀ i, (t₁.players i).playing = (t₂.players i).playing := by
    intro i
    by_cases hsame : t.AllSame
    · rw [h₁.same hsame, h₂.same hsame]
    · cases hi : (t.players i).playing with
      | false => rw [h₁.out i hi, h₂.out i hi]
      | true =>
        have hiff := (h₁.highest hsame i _ ⟨hi, rfl⟩).trans (h₂.highest hsame i _ ⟨hi, rfl⟩).symm
        exact Bool.eq_iff_iff.mpr (by simpa using not_congr hiff)
  have hplayers : t₁.players = t₂.players := by
    funext i
    have hresult := (h₁.results i).trans (h₂.results i).symm
    have hp := hplaying i
    generalize t₁.players i = p at *
    generalize t₂.players i = q at *
    cases p
    cases q
    simp only at *
    rw [hresult, hp]
  have hactive : t₁.activePlayers = t₂.activePlayers := by
    rw [h₁.ok.active, h₂.ok.active, Table.playingCount, Table.playingCount, hplayers]
  cases t₁
  cases t₂
  simp only at hplayers hactive
  rw [hplayers, hactive]

theorem Played.ok (hn : 1 ≤ n) (h : Played dice k t) : t.Ok ∧ t.IntResults := by
  have hzero : INT_MIN ≤ 0 ∧ 0 ≤ INT_MAX := by decide
  induction h with
  | start =>
    refine ⟨⟨?_, ⟨0, hn⟩, rfl⟩, fun _ => hzero⟩
    simp [Table.fresh, Table.playingCount, population]
  | round h helim ih =>
    refine ⟨helim.ok, fun i => ?_⟩
    rw [helim.results]
    exact ih.2.rollAll _ i

theorem Played.unique (h : Played dice k t) (h' : Played dice k t') : t = t' := by
  induction h generalizing t' with
  | start =>
    cases h'
    rfl
  | round h helim ih =>
    cases h' with
    | round h' helim' =>
      obtain rfl := ih h'
      exact helim.unique helim'

theorem Outcome.unique (hn : 1 ≤ n) {r' : Nat} {w' : Fin n} (h : Outcome dice r t w)
    (h' : Outcome dice r' t' w') : r = r' ∧ t = t' ∧ w = w' := by
  have hr : r = r' := by
    rcases Nat.lt_trichotomy r r' with hlt | heq | hlt
    · exact absurd h.decided (h'.unfinished r hlt t h.played)
    · exact heq
    · exact absurd h'.decided (h.unfinished r' hlt t' h'.played)
  subst hr
  obtain rfl := h.played.unique h'.played
  obtain ⟨_, -, honly⟩ := exists_unique_playing (h.played.ok hn).1 h.decided
  exact ⟨rfl, rfl, (honly w h.winner).trans (honly w' h'.winner).symm⟩

/-! ### The threads play it -/

/-- The thread has rolled in this round, if it is playing. -/
def Pc.rolled : Pc → Bool
  | .enteringSecond | .inSecond => true
  | _ => false

variable {M : Machine (Fin n)} {R : Refinement M} {x : Option (Fin n)} {σ σ' : System M} {e : Event M}
  {u : Fin n}

/-- While a round is rolled: some have rolled already and the others have not. -/
structure RollingTable (dice : Nat → Fin n → Nat × Nat) (r : Nat) (t : Table n) (σ : System M) : Prop where
  played : Played dice r t
  active : σ.table.activePlayers = t.activePlayers
  players : ∀ u, σ.table.players u =
    if (σ.pc u).rolled = true then (t.players u).rolled (dice r u) else t.players u
  more : ∀ u, (σ.pc u).rolled = true → t.activePlayers ≠ 1

/-- The table after the dice of the round `r` have been rolled, as the serial thread finds it and leaves it. -/
def TableAt (dice : Nat → Fin n → Nat × Nat) (r : Nat) (table : Table n) : Pc → Prop
  | .inSecond | .deciding _ => ∃ k t, r = k + 1 ∧ Played dice k t ∧ table = t.rollAll (dice k)
  | .eliminating p => ∃ k t, r = k + 1 ∧ Played dice k t ∧ p.Sees (t.rollAll (dice k)) table
  | _ => Played dice r table

structure EliminatingTable (dice : Nat → Fin n → Nat × Nat) (x : Option (Fin n)) (r : Nat) (σ : System M) :
    Prop where
  /-- Whoever is in the second barrier of the round has still to return from it. -/
  late : ∀ u, (σ.pc u).rolled = true → σ.rounds u + 1 = r
  table : TableAt dice r σ.table (x.elim .finished σ.pc)

/-- Whoever rolls gets what `dice` says. -/
def Follows (dice : Nat → Fin n → Nat × Nat) (σ : System M) : Event M → Prop
  | .roll t r₁ r₂ => (σ.table.players t).playing = true → (r₁, r₂) = dice (σ.rounds t) t
  | _ => True

/-- The threads play the game. -/
def Tracks (dice : Nat → Fin n → Nat × Nat) (R : Refinement M) (σ : System M) : Prop :=
  (∃ r t, Rolling R r σ ∧ RollingTable dice r t σ ∧ Unfinished dice r) ∨
    ∃ x r, Eliminating R x r σ ∧ EliminatingTable dice x r σ ∧ Unfinished dice r

namespace RollingTable

/-- A step that changes neither the table nor whether a thread has rolled. -/
theorem moved (h : RollingTable dice r t σ) (htable : σ'.table = σ.table)
    (hrolled : ∀ v, (σ'.pc v).rolled = (σ.pc v).rolled) : RollingTable dice r t σ' :=
  ⟨h.played, htable ▸ h.active, fun v => by rw [htable, hrolled]; exact h.players v,
    fun v hv => h.more v (hrolled v ▸ hv)⟩

/-- The step with which `u` has rolled. -/
theorem rolled (h : RollingTable dice r t σ) (hu : (σ.pc u).rolled = false)
    (hmore : σ.table.activePlayers ≠ 1) (hpc : σ'.pc = Function.update σ.pc u .enteringSecond)
    (htable : σ'.table = σ.table.setPlayer u ((σ.table.players u).rolled (dice r u))) :
    RollingTable dice r t σ' := by
  refine ⟨h.played, by rw [htable]; exact h.active, fun v => ?_, fun v _ => h.active ▸ hmore⟩
  rw [htable, hpc]
  by_cases hvu : v = u
  · subst hvu
    have hv := h.players v
    rw [hu, if_neg Bool.false_ne_true] at hv
    simp only [Table.setPlayer, Function.update_self, Pc.rolled, if_true, hv]
  · simp only [Table.setPlayer, Function.update_of_ne hvu]
    exact h.players v

/-- The step is one within the round, or the one that completes it. -/
theorem step (h : Rolling R r σ) (ht : RollingTable dice r t σ) (hf : Follows dice σ e)
    (hs : σ.step e = some σ') : RollingTable dice r t σ' ∧ σ'.rounds = σ.rounds := by
  have hgo : ∀ {u : Fin n} {q : Pc}, σ'.table = σ.table → σ'.pc = σ.go u q →
      q.rolled = (σ.pc u).rolled → RollingTable dice r t σ' := by
    intro u q htable hpc hq
    refine ht.moved htable fun v => ?_
    rw [hpc, System.go]
    by_cases hvu : v = u
    · subst hvu
      rw [Function.update_self, hq]
    · rw [Function.update_of_ne hvu]
  cases System.step_cases hs with
  | enterFirst hpc | decideSerial hpc | decide hpc | eliminate hpc | eliminated hpc =>
    exact (h.at_pc hpc).elim
  | @exitSecond u serial b hpc hb =>
    have hat := h.at_pc hpc
    rw [(return?_cases (R.ret _ _ _ _ h.ok hb).2).1] at hat
    cases hat.1
  | within hb => exact ⟨ht.moved rfl fun _ => rfl, rfl⟩
  | enterSecond hpc | exitFirst hpc | testLast hpc | testMore hpc | leaveSerial hpc | leave hpc
  | announce hpc | scan hpc | noWinner hpc => exact ⟨hgo rfl rfl (by rw [hpc]; rfl), rfl⟩
  | @roll u r₁ r₂ hpc hplaying =>
    refine ⟨ht.rolled (by rw [hpc]; rfl) (h.at_pc hpc).2.1 rfl ?_, rfl⟩
    have hdice : (r₁, r₂) = dice r u := h.rounds u ▸ hf hplaying
    rw [Player.rolled, if_pos hplaying, ← hdice]
  | @skip u r₁ r₂ hpc hplaying =>
    refine ⟨ht.rolled (by rw [hpc]; rfl) (h.at_pc hpc).2.1 rfl ?_, rfl⟩
    rw [Player.rolled, if_neg (by rw [hplaying]; exact Bool.false_ne_true), Table.setPlayer,
      Function.update_eq_self]

end RollingTable

namespace EliminatingTable

/-- A step of `u` that leaves the table alone. -/
theorem moved {q : Pc} (h : EliminatingTable dice x r σ) (htable : σ'.table = σ.table)
    (hpc : σ'.pc = σ.go u q) (hq : q.rolled = false) (hrounds : ∀ v, v ≠ u → σ'.rounds v = σ.rounds v)
    (hu : x = some u → TableAt dice r σ.table (σ.pc u) → TableAt dice r σ.table q) :
    EliminatingTable dice x r σ' := by
  refine ⟨fun v hv => ?_, ?_⟩
  · rw [hpc, System.go] at hv
    by_cases hvu : v = u
    · subst hvu
      rw [Function.update_self, hq] at hv
      cases hv
    · rw [Function.update_of_ne hvu] at hv
      rw [hrounds v hvu]
      exact h.late v hv
  · have htab := h.table
    rw [htable, hpc, System.go]
    cases x with
    | none => exact htab
    | some y =>
      show TableAt dice r σ.table (Function.update σ.pc u q y)
      by_cases hyu : y = u
      · subst hyu
        rw [Function.update_self]
        exact hu rfl htab
      · rw [Function.update_of_ne hyu]
        exact htab

/-- A step of the call of `eliminate_players`. -/
theorem eliminate {p : Elimination} {next : Option Elimination} {table : Table n} (hn : 1 ≤ n)
    (h : EliminatingTable dice (some u) r σ) (hpc : σ.pc u = .eliminating p)
    (hp : σ.table.eliminateStep p = (table, next)) {q : Pc}
    (hq : q = match next with
      | some p' => .eliminating p'
      | none => .enteringFirst (some true)) :
    EliminatingTable dice (some u) r { σ with table := table, pc := σ.go u q } := by
  have htable : TableAt dice r σ.table (σ.pc u) := h.table
  rw [hpc] at htable
  obtain ⟨k, t, rfl, hplayed, hsees⟩ := htable
  have hcall := (CallInv.step ((hplayed.ok hn).1.rollAll _) ((hplayed.ok hn).2.rollAll _) hsees).1
  rw [hp] at hcall
  have hrolled : q.rolled = false := by
    cases next <;> rw [hq] <;> rfl
  refine ⟨fun v hv => ?_, ?_⟩
  · simp only [System.go] at hv
    by_cases hvu : v = u
    · subst hvu
      rw [Function.update_self, hrolled] at hv
      cases hv
    · rw [Function.update_of_ne hvu] at hv
      exact h.late v hv
  · show TableAt dice (k + 1) table (Function.update σ.pc u q u)
    rw [Function.update_self]
    cases next with
    | some p' =>
      obtain rfl : q = .eliminating p' := hq
      exact ⟨k, t, rfl, hplayed, hcall⟩
    | none =>
      obtain rfl : q = .enteringFirst (some true) := hq
      exact .round hplayed hcall

theorem step (hn : 1 ≤ n) (h : Eliminating R x r σ) (ht : EliminatingTable dice x r σ)
    (hs : σ.step e = some σ') : EliminatingTable dice x r σ' := by
  cases System.step_cases hs with
  | enterFirst hpc =>
    refine ht.moved rfl rfl rfl (fun _ _ => rfl) fun _ => ?_
    rw [hpc]
    exact id
  | enterSecond hpc | testLast hpc | testMore hpc | roll hpc | skip hpc | leaveSerial hpc | leave hpc
  | announce hpc | scan hpc | noWinner hpc => exact (h.at_pc hpc).elim
  | within hb => exact ⟨ht.late, ht.table⟩
  | @exitFirst t res serial b hpc hb =>
    have hat := h.at_pc hpc
    rw [(return?_cases (R.ret _ _ _ _ h.ok hb).2).1] at hat
    cases hat.1
  | @exitSecond t serial b hpc hb =>
    refine ht.moved rfl rfl rfl (fun v hv => Function.update_of_ne hv _ _) fun _ => ?_
    rw [hpc]
    exact id
  | @decideSerial t hpc =>
    refine ht.moved rfl rfl rfl (fun _ _ => rfl) fun _ htable => ?_
    rw [hpc] at htable
    obtain ⟨k, t₀, hk, hplayed, heq⟩ := htable
    exact ⟨k, t₀, hk, hplayed, heq ▸ .start⟩
  | @decide t hpc =>
    refine ht.moved rfl rfl rfl (fun _ _ => rfl) ?_
    rintro rfl
    exact nomatch (isSerial_self t).symm.trans (h.at_pc hpc).2.1
  | eliminate hpc hp =>
    obtain ⟨-, rfl, -⟩ := h.at_pc hpc
    exact ht.eliminate hn hpc hp rfl
  | eliminated hpc hp =>
    obtain ⟨-, rfl, -⟩ := h.at_pc hpc
    exact ht.eliminate hn hpc hp rfl

end EliminatingTable

/-! ### From one phase to the other -/

/-- Every thread has rolled. -/
theorem RollingTable.complete (h : Eliminating R (some w) (r + 1) σ) (ht : RollingTable dice r t σ)
    (hrounds : ∀ u, σ.rounds u = r) : EliminatingTable dice (some w) (r + 1) σ ∧ t.activePlayers ≠ 1 := by
  have hall : ∀ u, σ.pc u = .inSecond := by
    intro u
    have hat := h.place u
    have hu := hrounds u
    cases hpc : σ.pc u <;> rw [hpc] at hat
    case deciding => have := hat.2.2; omega
    case eliminating => have := hat.2.2; omega
    case enteringFirst => have := hat.2.2; omega
    case inFirst => have := hat.2.2; omega
    all_goals exact hat.elim
  refine ⟨⟨fun u _ => congrArg (· + 1) (hrounds u), ?_⟩, ht.more w (by rw [hall]; rfl)⟩
  show TableAt dice (r + 1) σ.table (σ.pc w)
  rw [hall]
  refine ⟨r, t, rfl, ht.played, ?_⟩
  have hplayers : σ.table.players = fun u => (t.players u).rolled (dice r u) := by
    funext u
    rw [ht.players, hall, Pc.rolled, if_pos rfl]
  show σ.table = ⟨_, t.activePlayers⟩
  rw [← ht.active, ← hplayers]

/-- No thread has rolled yet. -/
theorem EliminatingTable.complete (h : Rolling R r σ) (ht : EliminatingTable dice x r σ) :
    RollingTable dice r σ.table σ := by
  have hnone : ∀ u, (σ.pc u).rolled = false := by
    intro u
    cases hu : (σ.pc u).rolled with
    | false => rfl
    | true =>
      have hlate := ht.late u hu
      have hrounds := h.rounds u
      omega
  have hplayed : Played dice r σ.table := by
    have htable := ht.table
    cases x with
    | none => exact htable
    | some y =>
      have hat := h.place y
      have hy := hnone y
      replace htable : TableAt dice r σ.table (σ.pc y) := htable
      cases hpc : σ.pc y <;> rw [hpc] at htable hat hy
      case inSecond => cases hy
      case deciding => exact hat.elim
      case eliminating => exact hat.elim
      all_goals exact htable
  refine ⟨hplayed, rfl, fun u => ?_, fun u hu => ?_⟩
  · rw [hnone, if_neg Bool.false_ne_true]
  · rw [hnone] at hu
    cases hu

namespace Tracks

theorem start (hn : 1 ≤ n) : Tracks dice R (System.start M) := by
  rcases Inv.start (R := R) hn with ⟨r, h⟩ | ⟨x, r, h⟩
  · exact (h.place ⟨0, hn⟩).elim
  · obtain rfl : 0 = r := (h.place ⟨0, hn⟩).2.2
    have hx : x = none := by
      cases x with
      | none => rfl
      | some y => cases h.stage.2.1
    subst hx
    exact .inr ⟨none, 0, h, ⟨fun u hu => (nomatch hu), .start⟩, fun j hj => absurd hj (Nat.not_lt_zero j)⟩

theorem step (hn : 1 ≤ n) (h : Tracks dice R σ) (hf : Follows dice σ e) (hs : σ.step e = some σ') :
    Tracks dice R σ' := by
  rcases h with ⟨r, t, h, ht, hunfinished⟩ | ⟨x, r, h, ht, hunfinished⟩
  · obtain ⟨ht', hrounds⟩ := RollingTable.step h ht hf hs
    rcases h.step hs with h' | ⟨x, h'⟩
    · exact .inl ⟨r, t, h', ht', hunfinished⟩
    · obtain ⟨helim, hmore⟩ := ht'.complete h' fun u => (congrFun hrounds u).trans (h.rounds u)
      refine .inr ⟨some x, r + 1, h', helim, fun j hj t' hplayed => ?_⟩
      rcases Nat.lt_succ_iff_lt_or_eq.mp hj with hlt | rfl
      · exact hunfinished j hlt t' hplayed
      · obtain rfl := hplayed.unique ht.played
        exact hmore
  · have ht' := EliminatingTable.step hn h ht hs
    rcases h.step hs with h' | h'
    · exact .inr ⟨x, r, h', ht', hunfinished⟩
    · exact .inl ⟨r, σ'.table, h', ht'.complete h', hunfinished⟩

/-- At the end the table is that of the game. -/
theorem outcome (hn : 2 ≤ n) (h : Tracks dice R σ) (hdone : ∀ t, σ.pc t = .finished) :
    ∃ r w, Outcome dice r σ.table w ∧ (∀ t, σ.rounds t = r) ∧ σ.announced.map Prod.snd = [w] := by
  rcases h with ⟨r, t, h, ht, hunfinished⟩ | ⟨x, r, h, -⟩
  · have hagreed := Inv.agreement (.inl ⟨r, h⟩) hn
    obtain ⟨x, w, hw, -, hplaying⟩ := hagreed.announced hdone
    have htable : σ.table = t := by
      have hplayers : σ.table.players = t.players := by
        funext u
        rw [ht.players, hdone]
        rfl
      show σ.table = ⟨_, _⟩
      rw [← ht.active, ← hplayers]
    refine ⟨r, w, ⟨hunfinished, htable ▸ ht.played, h.of_left (t := w) (by rw [hdone]; rfl), hplaying⟩,
      h.rounds, by rw [hw]; rfl⟩
  · have hleft := h.not_left ⟨0, one_le hn⟩
    rw [hdone] at hleft
    cases hleft

end Tracks

theorem Tracks.of_run {events : List (Event M)} (hn : 1 ≤ n)
    (hfollows : Meets System.step (Follows dice) (System.start M) events)
    (hr : run System.step (System.start M) events = some σ) : Tracks dice R σ :=
  run_inv_of_meets (fun _ _ _ h hf hs => h.step hn hf hs) (.start hn) hfollows hr

/-- Two runs to the end, over either barrier, in which the players roll the same. -/
theorem sameOutcome (v₁ v₂ : Variant) (hn : 2 ≤ n) (hmax : (n : Int) ≤ INT_MAX)
    (dice : Nat → Fin n → Nat × Nat)
    (events₁ : List (Event (v₁.machine n))) (σ₁ : System (v₁.machine n))
    (hfollows₁ : Meets System.step (Follows dice) (System.start (v₁.machine n)) events₁)
    (hr₁ : run System.step (System.start (v₁.machine n)) events₁ = some σ₁)
    (hdone₁ : ∀ t, σ₁.pc t = .finished)
    (events₂ : List (Event (v₂.machine n))) (σ₂ : System (v₂.machine n))
    (hfollows₂ : Meets System.step (Follows dice) (System.start (v₂.machine n)) events₂)
    (hr₂ : run System.step (System.start (v₂.machine n)) events₂ = some σ₂)
    (hdone₂ : ∀ t, σ₂.pc t = .finished) :
    ∃ r w, Outcome dice r σ₁.table w ∧ σ₂.table = σ₁.table ∧
      (∀ t, σ₁.rounds t = r ∧ σ₂.rounds t = r) ∧
      σ₁.announced.map Prod.snd = [w] ∧ σ₂.announced.map Prod.snd = [w] := by
  have h₁ := Tracks.of_run (R := v₁.refinement hn hmax) (one_le hn) hfollows₁ hr₁
  have h₂ := Tracks.of_run (R := v₂.refinement hn hmax) (one_le hn) hfollows₂ hr₂
  obtain ⟨r, w, houtcome, hrounds₁, hw₁⟩ := h₁.outcome hn hdone₁
  obtain ⟨r', w', houtcome', hrounds₂, hw₂⟩ := h₂.outcome hn hdone₂
  obtain ⟨rfl, htable, rfl⟩ := houtcome'.unique (one_le hn) houtcome
  exact ⟨r', w', houtcome, htable, fun t => ⟨hrounds₁ t, hrounds₂ t⟩, hw₁, hw₂⟩

/-- What a player rolls in each round of the example. -/
def diceOf (i : Fin 2) : Nat × Nat := if i = 0 then (0, 0) else (5, 5)

/-- The same game over the barrier of task 3, where the other thread is the serial one. -/
def ownRound : List (Event (Variant.own.machine 2)) :=
  let meet (a b : Fin 2) : List (Event (Variant.own.machine 2)) :=
    [.enter a, .barrier (.lock a), .barrier (.arrive a), .barrier (.test a), .enter b, .barrier (.lock b),
      .barrier (.arrive b), .exit b, .barrier (.relock a), .barrier (.test a), .exit a]
  meet 0 1 ++ [.test 0, .roll 0 0 0, .test 1, .roll 1 5 5] ++ meet 1 0 ++ [.decide 1, .decide 0] ++
    List.replicate 10 (.eliminate 0) ++ meet 0 1 ++ [.test 0, .test 1, .leave 0, .leave 1, .announce 0]

instance (dice : Nat → Fin n → Nat × Nat) (σ : System M) : (e : Event M) → Decidable (Follows dice σ e)
  | .roll t r₁ r₂ =>
    inferInstanceAs (Decidable ((σ.table.players t).playing = true → (r₁, r₂) = dice (σ.rounds t) t))
  | .enter _ | .barrier _ | .exit _ | .test _ | .decide _ | .eliminate _ | .leave _ | .announce _ =>
    isTrue trivial

/-- In the two runs different threads announce the winner. -/
theorem sameOutcome_oneRound : ∃ (σ₁ : System (Variant.posix.machine 2))
    (σ₂ : System (Variant.own.machine 2)), σ₁.announced = [(1, 0)] ∧ σ₂.announced = [(0, 0)] ∧
    ∃ r w, Outcome (fun _ => diceOf) r σ₁.table w ∧ σ₂.table = σ₁.table ∧
      (∀ t, σ₁.rounds t = r ∧ σ₂.rounds t = r) ∧
      σ₁.announced.map Prod.snd = [w] ∧ σ₂.announced.map Prod.snd = [w] := by
  have hposix : (run System.step (System.start (Variant.posix.machine 2)) (oneRound 0 1)).map
      (fun σ => (σ.announced, decide (∀ t, σ.pc t = .finished))) = some ([(1, 0)], true) := by
    decide +kernel
  have hown : (run System.step (System.start (Variant.own.machine 2)) ownRound).map
      (fun σ => (σ.announced, decide (∀ t, σ.pc t = .finished))) = some ([(0, 0)], true) := by
    decide +kernel
  obtain ⟨σ₁, hr₁, heq₁⟩ := Option.map_eq_some_iff.mp hposix
  obtain ⟨σ₂, hr₂, heq₂⟩ := Option.map_eq_some_iff.mp hown
  obtain ⟨hannounced₁, hdone₁⟩ := Prod.mk.inj heq₁
  obtain ⟨hannounced₂, hdone₂⟩ := Prod.mk.inj heq₂
  exact ⟨σ₁, σ₂, hannounced₁, hannounced₂, sameOutcome .posix .own (by decide) (by decide)
    (fun _ => diceOf) (oneRound 0 1) σ₁ (by decide +kernel) hr₁ (of_decide_eq_true hdone₁)
    ownRound σ₂ (by decide +kernel) hr₂ (of_decide_eq_true hdone₂)⟩

end OsExercises.Dice
