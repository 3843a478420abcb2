import Mathlib.Data.List.Forall2
import OsExercises.Simulate.Model

/-!
# The parent and its children

The first process of the table is the one that called `simulate`, the others are its children in the order
of the calls of `fork`: only the first one forks and waits. The loop over the targets runs to its end
whatever `fork` returns, since -1 is compared with -2.
-/

namespace OsExercises.Simulate
open Processes Transition

variable {eyes : Int} {forks : Nat → Bool} {σ σ' : Table State} {e : Event}

/-! ### The invariant -/

/-- The calls of `fork` among the first ones that succeed. -/
def made (forks : Nat → Bool) (calls : Nat) : List Nat := (List.range calls).filter forks

/-- The child that the call `k` of `fork` has made. -/
structure IsChild (k : Nat) (p : Process State) : Prop where
  parent : p.parent = some 0
  state : p.state = ⟨.simulating (k + 2), []⟩ ∧ p.reaped = false ∨
    (p.state.pc = .exited ∨ p.state.pc = .returned (-1)) ∧ p.state.simulated = [(k : Int) + 2]

/-- `n` children have been waited for, or all there are. -/
def Collected (reaped : List Bool) (n : Int) : Prop := reaped.count true = n ∨ ∀ b ∈ reaped, b = true

/-- Where the parent is, after `calls` calls of `fork`. -/
def ParentAt (eyes : Int) (calls : Nat) (reaped : List Bool) : Pc → Prop
  | .forking target => 1 ≤ target ∧ target < 2 * eyes ∧ calls = target - 1 ∧ ∀ b ∈ reaped, b = false
  | .waiting i => 2 ≤ i ∧ i ≤ 2 * eyes ∧ calls = 2 * eyes - 1 ∧ Collected reaped (i - 2)
  | .returned r => r = 0 ∧ calls = 2 * eyes - 1 ∧ ∀ b ∈ reaped, b = true
  | _ => False

structure Inv (eyes : Int) (forks : Nat → Bool) (σ : Table State) (parent : Process State)
    (children : List (Process State)) : Prop where
  processes : σ.processes = parent :: children
  noParent : parent.parent = none
  simulated : parent.state.simulated = []
  notReaped : parent.reaped = false
  pc : ParentAt eyes σ.calls (children.map Process.reaped) parent.state.pc
  children : List.Forall₂ IsChild (made forks σ.calls) children

/-! ### The calls that succeed -/

theorem made_succ_of_true {calls : Nat} (h : forks calls = true) :
    made forks (calls + 1) = made forks calls ++ [calls] := by
  rw [made, List.range_succ, List.filter_append, List.filter_singleton, h]
  rfl

theorem made_succ_of_false {calls : Nat} (h : forks calls = false) :
    made forks (calls + 1) = made forks calls := by
  rw [made, List.range_succ, List.filter_append, List.filter_singleton, h]
  exact List.append_nil _

theorem length_made_le (calls : Nat) : (made forks calls).length ≤ calls := by
  have hle := List.length_filter_le forks (List.range calls)
  rwa [List.length_range] at hle

theorem made_eq_range {calls : Nat} (h : ∀ k < calls, forks k = true) : made forks calls = List.range calls :=
  List.filter_eq_self.mpr fun k hk => h k (List.mem_range.mp hk)

/-! ### The loops -/

section Loops

variable (h1 : 1 ≤ eyes) (h2 : eyes < 2 ^ 30) {reaped : List Bool} {calls : Nat}
include h1 h2

theorem targets_eq : intMul? eyes 2 = some (2 * eyes) :=
  intMul?_eq_some (Int.mul_comm eyes 2) (by unfold INT_MIN; omega) (by unfold INT_MAX; omega)

theorem next_eq {i : Int} (hi : 1 ≤ i) (hle : i ≤ 2 * eyes) : intAdd? i 1 = some (i + 1) :=
  intAdd?_eq_some rfl (by unfold INT_MIN; omega) (by unfold INT_MAX; omega)

theorem parentAt_forLoop {i : Int} (hi : 2 ≤ i) (hle : i ≤ 2 * eyes + 1) (hcalls : calls = 2 * eyes - 1)
    (hlength : reaped.length ≤ calls) (hcollected : Collected reaped (i - 2)) :
    ParentAt eyes calls reaped (forLoop eyes i) := by
  rw [forLoop, targets_eq h1 h2]
  dsimp only
  split_ifs with hcond
  · exact ⟨hi, hcond, hcalls, hcollected⟩
  · refine ⟨rfl, hcalls, ?_⟩
    rcases hcollected with hcount | hall
    · have hle := List.count_le_length (a := true) (l := reaped)
      have heq : reaped.count true = reaped.length := by omega
      exact fun b hb => (List.count_eq_length.mp heq b hb).symm
    · exact hall

theorem parentAt_whileLoop {pid target : Int} (hpid : pid ≠ 0) (htarget : 1 ≤ target)
    (hle : target ≤ 2 * eyes) (hcalls : calls = target - 1) (hreaped : ∀ b ∈ reaped, b = false)
    (hlength : reaped.length ≤ calls) : ParentAt eyes calls reaped (whileLoop eyes pid target) := by
  rw [whileLoop, targets_eq h1 h2]
  dsimp only
  split_ifs with hcond
  · exact ⟨htarget, hcond.2, hcalls, hreaped⟩
  · have hlast : ¬ target < 2 * eyes := fun hlt => hcond ⟨hpid, hlt⟩
    refine parentAt_forLoop h1 h2 le_rfl (by omega) (by omega) hlength (Or.inl ?_)
    rw [List.count_eq_zero_of_not_mem fun hmem => Bool.noConfusion (hreaped true hmem)]
    rfl

/-- The child starts with the loop condition, which its `pid` ends. -/
theorem afterFork_child {target : Int} (htarget : 1 ≤ target) (hle : target ≤ 2 * eyes) :
    afterFork eyes 0 target = .simulating (target + 1) := by
  simp [afterFork, next_eq h1 h2 htarget hle, whileLoop, targets_eq h1 h2]

theorem parentAt_afterFork {pid target : Int} (hpid : pid ≠ 0) (hpid' : pid ≠ -2) (htarget : 1 ≤ target)
    (hlt : target < 2 * eyes) (hcalls : calls = target) (hreaped : ∀ b ∈ reaped, b = false)
    (hlength : reaped.length ≤ calls) : ParentAt eyes calls reaped (afterFork eyes pid target) := by
  simp only [afterFork, next_eq h1 h2 htarget (Int.le_of_lt hlt), if_neg hpid']
  exact parentAt_whileLoop h1 h2 hpid (by omega) (by omega) (by omega) hreaped hlength

end Loops

/-! ### What is left to do -/

def Pc.weight (eyes : Int) : Pc → Nat
  | .forking target => (6 * eyes - 2 * target).toNat
  | .waiting i => (2 * eyes + 1 - i).toNat
  | .simulating _ => 1
  | _ => 0

def weight (eyes : Int) (σ : Table State) : Nat := (σ.processes.map fun p => p.state.pc.weight eyes).sum

section Weight

variable (h1 : 1 ≤ eyes) (h2 : eyes < 2 ^ 30)
include h1 h2

theorem weight_forLoop {i : Int} : (forLoop eyes i).weight eyes ≤ (2 * eyes + 1 - i).toNat := by
  simp only [forLoop, targets_eq h1 h2]
  split_ifs
  · exact le_rfl
  · exact Nat.zero_le _

theorem weight_afterFork {pid target : Int} (hpid : pid ≠ 0) (htarget : 1 ≤ target) (hlt : target < 2 * eyes) :
    (afterFork eyes pid target).weight eyes + 1 < (6 * eyes - 2 * target).toNat := by
  simp only [afterFork, next_eq h1 h2 htarget (Int.le_of_lt hlt), whileLoop, targets_eq h1 h2]
  split_ifs with hpid' hcond
  · simp only [Pc.weight]
    omega
  · simp only [Pc.weight]
    omega
  · have hlast : ¬ target + 1 < 2 * eyes := fun hlt => hcond ⟨hpid, hlt⟩
    have hle := weight_forLoop h1 h2 (i := 2)
    omega

end Weight

/-! ### One step -/

section Lists

variable {α β : Type*} {R : α → β → Prop} {l : List α} {l' : List β} {b b' : β} {j : Nat}

theorem exists_of_mem_right (h : List.Forall₂ R l l') (hb : b ∈ l') : ∃ a, R a b := by
  induction h with
  | nil => cases hb
  | @cons a c l l' hac _ ih =>
    rcases List.mem_cons.mp hb with rfl | hb
    · exact ⟨a, hac⟩
    · exact ih hb

theorem forall₂_set (h : List.Forall₂ R l l') (hj : l'[j]? = some b) (hb : ∀ a, R a b → R a b') :
    List.Forall₂ R l (l'.set j b') := by
  induction h generalizing j with
  | nil => cases hj
  | @cons a c l l' hac hrest ih =>
    cases j with
    | zero =>
      obtain rfl : c = b := Option.some.inj hj
      exact .cons (hb a hac) hrest
    | succ j => exact .cons hac (ih hj)

theorem map_eq_of_forall₂ {γ : Type*} {f : α → γ} {g : β → γ} (h : List.Forall₂ R l l')
    (hfg : ∀ a b, b ∈ l' → R a b → g b = f a) : l'.map g = l.map f := by
  induction h with
  | nil => rfl
  | @cons a c l l' hac _ ih =>
    rw [List.map_cons, List.map_cons, hfg a c List.mem_cons_self hac,
      ih fun a b hb => hfg a b (List.mem_cons_of_mem _ hb)]

theorem sum_set {ns : List Nat} {m n : Nat} (hj : ns[j]? = some m) : (ns.set j n).sum + m = ns.sum + n := by
  induction ns generalizing j with
  | nil => cases hj
  | cons a ns ih =>
    cases j with
    | zero =>
      obtain rfl : a = m := Option.some.inj hj
      rw [List.set_cons_zero, List.sum_cons, List.sum_cons]
      omega
    | succ j =>
      have hrest := ih hj
      rw [List.set_cons_succ, List.sum_cons, List.sum_cons]
      omega

theorem set_of_getElem? (hj : l'[j]? = some b) : l'.set j b = l' := by
  obtain ⟨hlt, rfl⟩ := List.getElem?_eq_some_iff.mp hj
  exact List.set_getElem_self hlt

end Lists

/-- A child behind `simulate_target`. -/
def childAfter (target : Int) (clock : Bool) : State :=
  ⟨if simulateTarget clock = -1 then .returned (-1) else .exited, [target]⟩

theorem IsChild.next_eq (eyes : Int) {p : Process State} {k : Nat} (h : IsChild k p) :
    next eyes p.state = .call (childAfter (k + 2)) ∧ p.state = ⟨.simulating (k + 2), []⟩ ∧ p.reaped = false ∨
      next eyes p.state = .ended := by
  rcases h.state with hstate | ⟨hpc | hpc, -⟩
  · exact Or.inl ⟨by rw [hstate.1]; rfl, hstate⟩
  · exact Or.inr (by rw [Simulate.next, hpc])
  · exact Or.inr (by rw [Simulate.next, hpc])

namespace Inv

variable {parent p c : Process State} {children : List (Process State)} {i j : Nat} {s : State}

theorem length_le (h : Inv eyes forks σ parent children) : (children.map Process.reaped).length ≤ σ.calls := by
  rw [List.length_map, ← h.children.length_eq]
  exact length_made_le _

/-- A process is the parent or one of the children. -/
theorem place (h : Inv eyes forks σ parent children) (hp : σ.processes[i]? = some p) :
    i = 0 ∧ p = parent ∨ ∃ j n, i = j + 1 ∧ children[j]? = some p ∧ IsChild n p := by
  rw [h.processes] at hp
  cases i with
  | zero => exact Or.inl ⟨rfl, (Option.some.inj hp).symm⟩
  | succ j =>
    obtain ⟨n, hn⟩ := exists_of_mem_right h.children (List.mem_of_getElem? hp)
    exact Or.inr ⟨j, n, rfl, hp, hn⟩

/-- Only the parent forks. -/
theorem of_fork {k : Int → State} (h : Inv eyes forks σ parent children) (hp : σ.processes[i]? = some p)
    (hnext : next eyes p.state = .fork k) : i = 0 ∧ p = parent ∧ ∃ target, p.state.pc = .forking target ∧
      k = fun pid => { p.state with pc := afterFork eyes pid target } := by
  rcases h.place hp with ⟨rfl, rfl⟩ | ⟨j, n, rfl, -, hchild⟩
  · rw [next] at hnext
    split at hnext <;> try cases hnext
    next target hpc => exact ⟨rfl, rfl, target, hpc, rfl⟩
  · rcases hchild.next_eq eyes with ⟨hcall, -⟩ | hended
    · cases hcall.symm.trans hnext
    · cases hended.symm.trans hnext

/-- Only the parent waits. -/
theorem of_wait (h : Inv eyes forks σ parent children) (hp : σ.processes[i]? = some p)
    (hnext : next eyes p.state = .wait s) : i = 0 ∧ p = parent ∧ ∃ i, p.state.pc = .waiting i ∧
      s = { p.state with pc := afterWait eyes i } := by
  rcases h.place hp with ⟨rfl, rfl⟩ | ⟨j, n, rfl, -, hchild⟩
  · rw [next] at hnext
    split at hnext <;> try cases hnext
    next i hpc => exact ⟨rfl, rfl, i, hpc, rfl⟩
  · rcases hchild.next_eq eyes with ⟨hcall, -⟩ | hended
    · cases hcall.symm.trans hnext
    · cases hended.symm.trans hnext

/-- Only a child simulates. -/
theorem of_call {k : Bool → State} (h : Inv eyes forks σ parent children) (hp : σ.processes[i]? = some p)
    (hnext : next eyes p.state = .call k) : ∃ j n, i = j + 1 ∧ children[j]? = some p ∧
      p.state = ⟨.simulating ((n : Nat) + 2), []⟩ ∧ p.reaped = false ∧ IsChild n p := by
  rcases h.place hp with ⟨rfl, rfl⟩ | ⟨j, n, rfl, hj, hchild⟩
  · have hpc := h.pc
    rw [next] at hnext
    split at hnext <;> try cases hnext
    next target hsimulating =>
      rw [hsimulating] at hpc
      cases hpc
  · rcases hchild.next_eq eyes with ⟨-, hstate, hreaped⟩ | hended
    · exact ⟨j, n, rfl, hj, hstate, hreaped, hchild⟩
    · cases hended.symm.trans hnext

/-- The parent goes on without a new child. -/
theorem moved {pc : Pc} {calls : Nat} {children' : List (Process State)} (h : Inv eyes forks σ parent children)
    (hpc : ParentAt eyes calls (children'.map Process.reaped) pc)
    (hchildren : List.Forall₂ IsChild (made forks calls) children')
    (hstates : children'.map Process.state = children.map Process.state)
    (hweight : pc.weight eyes < parent.state.pc.weight eyes) :
    Inv eyes forks ⟨{ parent with state := { parent.state with pc := pc } } :: children', calls⟩
        { parent with state := { parent.state with pc := pc } } children' ∧
      weight eyes ⟨{ parent with state := { parent.state with pc := pc } } :: children', calls⟩ < weight eyes σ := by
  refine ⟨⟨rfl, h.noParent, h.simulated, h.notReaped, hpc, hchildren⟩, ?_⟩
  have hsame : (children'.map fun p => p.state.pc.weight eyes) =
      children.map fun p => p.state.pc.weight eyes := by
    have hmap := congrArg (List.map fun s : State => s.pc.weight eyes) hstates
    rwa [List.map_map, List.map_map] at hmap
  rw [weight, weight, h.processes, List.map_cons, List.map_cons, List.sum_cons, List.sum_cons, hsame]
  exact Nat.add_lt_add_right hweight _

section Step

variable (h1 : 1 ≤ eyes) (h2 : eyes < 2 ^ 30)
include h1 h2

theorem forked {k : Int → State} (h : Inv eyes forks σ parent children) (hp : σ.processes[i]? = some p)
    (hnext : next eyes p.state = .fork k) (hsucceeds : forks σ.calls = true) :
    ∃ parent' children', Inv eyes forks ⟨σ.processes.set i { p with state := k σ.processes.length } ++
        [⟨some i, k 0, false⟩], σ.calls + 1⟩ parent' children' ∧
      weight eyes ⟨σ.processes.set i { p with state := k σ.processes.length } ++
        [⟨some i, k 0, false⟩], σ.calls + 1⟩ < weight eyes σ := by
  obtain ⟨rfl, rfl, target, htarget, rfl⟩ := h.of_fork hp hnext
  have hpc := h.pc
  rw [htarget] at hpc
  obtain ⟨hle, hlt, hcalls, hreaped⟩ := hpc
  have hlength := h.length_le
  have hpid : (σ.processes.length : Int) ≠ 0 := by
    rw [h.processes, List.length_cons]
    omega
  have hchild : afterFork eyes 0 target = .simulating (target + 1) := afterFork_child h1 h2 hle (by omega)
  have hweight := weight_afterFork h1 h2 hpid hle hlt
  simp only [h.processes, List.set_cons_zero, List.cons_append, hchild] at *
  refine ⟨_, _, ⟨rfl, h.noParent, h.simulated, h.notReaped, ?_, ?_⟩, ?_⟩
  · refine parentAt_afterFork h1 h2 hpid (by omega) hle hlt (by push_cast; omega) ?_ ?_
    · rw [List.map_append, List.forall_mem_append]
      exact ⟨hreaped, List.forall_mem_singleton.mpr rfl⟩
    · rw [List.map_append, List.length_append]
      exact Nat.add_le_add_right hlength 1
  · rw [made_succ_of_true hsucceeds]
    refine List.rel_append h.children (.cons ⟨rfl, Or.inl ⟨?_, rfl⟩⟩ .nil)
    have heq : target + 1 = (σ.calls : Int) + 2 := by omega
    rw [h.simulated, heq]
  · have hbefore : p.state.pc.weight eyes = (6 * eyes - 2 * target).toNat := by rw [htarget, Pc.weight]
    have hone : (Pc.simulating (target + 1)).weight eyes = 1 := rfl
    simp only [weight, h.processes, List.map_cons, List.map_append, List.map_nil, List.sum_cons,
      List.sum_append, List.sum_nil, hbefore, hone]
    omega

theorem forkFailed {k : Int → State} (h : Inv eyes forks σ parent children) (hp : σ.processes[i]? = some p)
    (hnext : next eyes p.state = .fork k) (hfails : forks σ.calls = false) :
    ∃ parent' children', Inv eyes forks ⟨σ.processes.set i { p with state := k (-1) }, σ.calls + 1⟩
        parent' children' ∧
      weight eyes ⟨σ.processes.set i { p with state := k (-1) }, σ.calls + 1⟩ < weight eyes σ := by
  obtain ⟨rfl, rfl, target, htarget, rfl⟩ := h.of_fork hp hnext
  have hpc := h.pc
  rw [htarget] at hpc
  obtain ⟨hle, hlt, hcalls, hreaped⟩ := hpc
  rw [h.processes, List.set_cons_zero]
  refine ⟨_, _, h.moved ?_ ?_ rfl ?_⟩
  · exact parentAt_afterFork h1 h2 (by decide) (by decide) hle hlt (by push_cast; omega) hreaped
      (h.length_le.trans (Nat.le_succ _))
  · rw [made_succ_of_false hfails]
    exact h.children
  · have hpid : (-1 : Int) ≠ 0 := by decide
    have hweight := weight_afterFork h1 h2 hpid hle hlt
    rw [htarget, Pc.weight]
    omega

/-- `wait` has returned. -/
theorem waited {children' : List (Process State)} (h : Inv eyes forks σ parent children) {i : Int}
    (hwaiting : parent.state.pc = .waiting i) (hstates : children'.map Process.state = children.map Process.state)
    (hchildren : List.Forall₂ IsChild (made forks σ.calls) children')
    (hcollected : Collected (children'.map Process.reaped) (i - 1)) :
    ∃ parent' children'', Inv eyes forks
        ⟨{ parent with state := { parent.state with pc := afterWait eyes i } } :: children', σ.calls⟩
        parent' children'' ∧
      weight eyes ⟨{ parent with state := { parent.state with pc := afterWait eyes i } } :: children', σ.calls⟩ <
        weight eyes σ := by
  have hpc := h.pc
  rw [hwaiting] at hpc
  obtain ⟨hle, hlt, hcalls, -⟩ := hpc
  have hlength : (children'.map Process.reaped).length ≤ σ.calls := by
    rw [List.length_map, ← hchildren.length_eq]
    exact length_made_le _
  simp only [afterWait, Simulate.next_eq h1 h2 (by omega) hlt]
  refine ⟨_, _, h.moved ?_ hchildren hstates ?_⟩
  · refine parentAt_forLoop h1 h2 (by omega) (by omega) hcalls hlength ?_
    rwa [show i + 1 - 2 = i - 1 by omega]
  · have hweight := weight_forLoop h1 h2 (i := i + 1)
    rw [hwaiting, Pc.weight]
    omega

theorem reaped (h : Inv eyes forks σ parent children) (hp : σ.processes[i]? = some p)
    (hnext : next eyes p.state = .wait s) (hc : σ.processes[j]? = some c) (hparent : c.parent = some i)
    (hended : (next eyes c.state).isEnded = true) (hreaped : c.reaped = false) :
    ∃ parent' children', Inv eyes forks { σ with
        processes := (σ.processes.set i { p with state := s }).set j { c with reaped := true } } parent' children' ∧
      weight eyes { σ with
        processes := (σ.processes.set i { p with state := s }).set j { c with reaped := true } } <
        weight eyes σ := by
  obtain ⟨rfl, rfl, i, hwaiting, rfl⟩ := h.of_wait hp hnext
  rw [h.processes] at hc ⊢
  cases j with
  | zero =>
    obtain rfl : p = c := Option.some.inj hc
    rw [h.noParent] at hparent
    cases hparent
  | succ j =>
    have hpc := h.pc
    rw [hwaiting] at hpc
    obtain ⟨-, -, -, hcollected⟩ := hpc
    have hstate : children[j]? = some c := hc
    rw [List.set_cons_zero, List.set_cons_succ]
    refine h.waited h1 h2 hwaiting ?_ ?_ ?_
    · rw [List.map_set]
      exact set_of_getElem? (by rw [List.getElem?_map, hstate]; rfl)
    · refine forall₂_set h.children hstate fun k hk => ⟨hk.parent, Or.inr ?_⟩
      rcases hk.state with ⟨hsimulating, -⟩ | hdone
      · rw [hsimulating] at hended
        cases hended
      · exact hdone
    · have hmem : false ∈ children.map Process.reaped :=
        List.mem_map.mpr ⟨c, List.mem_of_getElem? hstate, hreaped⟩
      have hcount := hcollected.resolve_right fun hall => Bool.noConfusion (hall false hmem)
      refine Or.inl ?_
      have hold : (children.map Process.reaped)[j]? = some false := by
        rw [List.getElem?_map, hstate]
        exact congrArg some hreaped
      obtain ⟨hj, hold⟩ := List.getElem?_eq_some_iff.mp hold
      rw [List.map_set, List.count_set hj, hold]
      show (((children.map Process.reaped).count true - 0 + 1 : Nat) : Int) = _
      push_cast
      omega

theorem childless (h : Inv eyes forks σ parent children) (hp : σ.processes[i]? = some p)
    (hnext : next eyes p.state = .wait s) (hnone : ∀ c ∈ σ.processes, c.parent = some i → c.reaped = true) :
    ∃ parent' children', Inv eyes forks { σ with processes := σ.processes.set i { p with state := s } }
        parent' children' ∧
      weight eyes { σ with processes := σ.processes.set i { p with state := s } } < weight eyes σ := by
  obtain ⟨rfl, rfl, i, hwaiting, rfl⟩ := h.of_wait hp hnext
  rw [h.processes] at hnone ⊢
  rw [List.set_cons_zero]
  refine h.waited h1 h2 hwaiting rfl h.children (Or.inr ?_)
  rw [List.forall_mem_map]
  intro c hc
  obtain ⟨k, hk⟩ := exists_of_mem_right h.children hc
  exact hnone c (List.mem_cons_of_mem _ hc) hk.parent

omit h1 h2 in
theorem called {k : Bool → State} {clock : Bool} (h : Inv eyes forks σ parent children)
    (hp : σ.processes[i]? = some p) (hnext : next eyes p.state = .call k) :
    ∃ parent' children', Inv eyes forks { σ with processes := σ.processes.set i { p with state := k clock } }
        parent' children' ∧
      weight eyes { σ with processes := σ.processes.set i { p with state := k clock } } < weight eyes σ := by
  obtain ⟨j, n, rfl, hp, hstate, hreaped, hchild⟩ := h.of_call hp hnext
  rw [hstate, next] at hnext
  cases hnext
  rw [h.processes, List.set_cons_succ]
  refine ⟨parent, _, ⟨rfl, h.noParent, h.simulated, h.notReaped, ?_, ?_⟩, ?_⟩
  · have hsame : (children.map Process.reaped)[j]? = some p.reaped := by
      rw [List.getElem?_map, hp]
      rfl
    rw [List.map_set]
    show ParentAt eyes σ.calls ((children.map Process.reaped).set j p.reaped) _
    rw [set_of_getElem? hsame]
    exact h.pc
  · refine forall₂_set h.children hp fun m hm => ⟨hm.parent, Or.inr ⟨?_, ?_⟩⟩
    · cases clock with
      | false => exact Or.inr rfl
      | true => exact Or.inl rfl
    · have hsimulated := hm.state
      rw [hstate] at hsimulated
      rcases hsimulated with ⟨hpc, -⟩ | ⟨hpc | hpc, -⟩
      · obtain ⟨hmn, -⟩ := State.mk.inj hpc
        rw [Pc.simulating.inj hmn]
        rfl
      · cases hpc
      · cases hpc
  · have hbefore : (children.map fun p => p.state.pc.weight eyes)[j]? = some 1 := by
      rw [List.getElem?_map, hp]
      show some (p.state.pc.weight eyes) = _
      rw [hstate]
      rfl
    have hdone : (if simulateTarget clock = -1 then Pc.returned (-1) else Pc.exited).weight eyes = 0 := by
      split <;> rfl
    have hsum := sum_set (n := 0) hbefore
    simp only [weight, h.processes, List.map_cons, List.map_set, List.sum_cons, hdone]
    omega

theorem step (h : Inv eyes forks σ parent children) (hs : σ.step (next eyes) forks e = some σ') :
    ∃ parent' children', Inv eyes forks σ' parent' children' ∧ weight eyes σ' < weight eyes σ := by
  cases Table.step_iff.mp hs with
  | forked hp hnext hsucceeds => exact h.forked h1 h2 hp hnext hsucceeds
  | forkFailed hp hnext hfails => exact h.forkFailed h1 h2 hp hnext hfails
  | reaped hp hnext hc hparent hended hreaped => exact h.reaped h1 h2 hp hnext hc hparent hended hreaped
  | childless hp hnext hnone => exact h.childless h1 h2 hp hnext hnone
  | called hp hnext => exact h.called hp hnext

theorem start : Inv eyes forks (Simulate.start eyes) ⟨none, ⟨whileLoop eyes 1 1, []⟩, false⟩ [] := by
  refine ⟨rfl, rfl, rfl, rfl, ?_, .nil⟩
  exact parentAt_whileLoop h1 h2 (by decide) (by decide) (by omega) rfl (List.forall_mem_nil _) (Nat.zero_le _)

end Step

end Inv

end OsExercises.Simulate
