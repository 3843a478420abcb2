import OsExercises.Lib.Processes

/-!
# A parent and its children

A family is a table of processes in which only the first one forks and waits; the others are its
children, in the order of the calls of `fork`, and end after some calls. What a step does can then be
said of the parent and the list of children (`Move`), and when no process can move all have ended
(`Family.ended_of_final`).
-/

namespace OsExercises.Processes
open Transition

variable {S : Type*} {next : S → Action S} {forks : Nat → Bool}

/-- A set of states in which a process only makes calls until it ends. -/
def Leaves (next : S → Action S) (leaf : S → Prop) : Prop :=
  ∀ s, leaf s → (next s).isEnded = true ∨ ∃ k, next s = .call k ∧ ∀ b, leaf (k b)

structure Family (leaf : S → Prop) (σ : Table S) (parent : Process S) (children : List (Process S)) :
    Prop where
  processes : σ.processes = parent :: children
  noParent : parent.parent = none
  children : ∀ c ∈ children, c.parent = some 0 ∧ leaf c.state

/-- What a step makes of the parent, the children and the number of calls of `fork`. -/
inductive Move (next : S → Action S) (forks : Nat → Bool) (parent : Process S) (children : List (Process S))
    (calls : Nat) : Process S → List (Process S) → Nat → Prop
  | fork {k : Int → S} (hnext : next parent.state = .fork k) (hsucceeds : forks calls = true) :
    Move next forks parent children calls { parent with state := k (children.length + 1 : Nat) }
      (children ++ [⟨some 0, k 0, false⟩]) (calls + 1)
  | forkFailed {k : Int → S} (hnext : next parent.state = .fork k) (hfails : forks calls = false) :
    Move next forks parent children calls { parent with state := k (-1) } children (calls + 1)
  | reap {j : Nat} {c : Process S} {s : S} (hnext : next parent.state = .wait s) (hc : children[j]? = some c)
    (hended : (next c.state).isEnded = true) (hreaped : c.reaped = false) :
    Move next forks parent children calls { parent with state := s } (children.set j { c with reaped := true })
      calls
  | childless {s : S} (hnext : next parent.state = .wait s) (hall : ∀ c ∈ children, c.reaped = true) :
    Move next forks parent children calls { parent with state := s } children calls
  | call {k : Bool → S} {b : Bool} (hnext : next parent.state = .call k) :
    Move next forks parent children calls { parent with state := k b } children calls
  | child {j : Nat} {c : Process S} {k : Bool → S} {b : Bool} (hc : children[j]? = some c)
    (hnext : next c.state = .call k) :
    Move next forks parent children calls parent (children.set j { c with state := k b }) calls

namespace Family

variable {leaf : S → Prop} {σ σ' : Table S} {parent p c : Process S} {children : List (Process S)}
  {e : Event} {i : Nat}

theorem start (s : S) : Family leaf (Table.start s) ⟨none, s, false⟩ [] := ⟨rfl, rfl, nofun⟩

theorem place (h : Family leaf σ parent children) (hp : σ.processes[i]? = some p) :
    i = 0 ∧ p = parent ∨ ∃ j, i = j + 1 ∧ children[j]? = some p ∧ p.parent = some 0 ∧ leaf p.state := by
  rw [h.processes] at hp
  cases i with
  | zero => exact .inl ⟨rfl, (Option.some.inj hp).symm⟩
  | succ j => exact .inr ⟨j, rfl, hp, h.children p (List.mem_of_getElem? hp)⟩

theorem next_leaf (hleaf : Leaves next leaf) {s : S} (hs : leaf s) :
    (∀ k, next s ≠ .fork k) ∧ ∀ s', next s ≠ .wait s' := by
  rcases hleaf s hs with hended | ⟨k, hk, -⟩
  · refine ⟨fun k hk => ?_, fun s' hs' => ?_⟩
    · rw [hk] at hended; cases hended
    · rw [hs'] at hended; cases hended
  · rw [hk]
    exact ⟨nofun, nofun⟩

theorem set (h : ∀ c ∈ children, c.parent = some 0 ∧ leaf c.state) {j : Nat} (hc : c.parent = some 0)
    (hleaf : leaf c.state) : ∀ d ∈ children.set j c, d.parent = some 0 ∧ leaf d.state := by
  intro d hd
  rcases List.mem_or_eq_of_mem_set hd with hd | rfl
  · exact h d hd
  · exact ⟨hc, hleaf⟩

theorem step (hleaf : Leaves next leaf) (hfork : ∀ k, next parent.state = .fork k → leaf (k 0))
    (h : Family leaf σ parent children) (hs : σ.step next forks e = some σ') : ∃ parent' children',
      Move next forks parent children σ.calls parent' children' σ'.calls ∧
        Family leaf σ' parent' children' := by
  have hprocesses := h.processes
  cases Table.step_iff.mp hs with
  | @forked i p k hp hnext hsucceeds =>
    rcases h.place hp with ⟨rfl, rfl⟩ | ⟨j, -, -, -, hl⟩
    · refine ⟨_, _, .fork hnext hsucceeds, ?_, h.noParent, ?_⟩
      · simp [hprocesses]
      · rw [List.forall_mem_append]
        exact ⟨h.children, List.forall_mem_singleton.mpr ⟨rfl, hfork k hnext⟩⟩
    · exact absurd hnext ((next_leaf hleaf hl).1 k)
  | @forkFailed i p k hp hnext hfails =>
    rcases h.place hp with ⟨rfl, rfl⟩ | ⟨j, -, -, -, hl⟩
    · exact ⟨_, _, .forkFailed hnext hfails, by simp [hprocesses], h.noParent, h.children⟩
    · exact absurd hnext ((next_leaf hleaf hl).1 k)
  | @reaped i j p c s hp hnext hc hparent hended hreaped =>
    rcases h.place hp with ⟨rfl, rfl⟩ | ⟨j, -, -, -, hl⟩
    · rcases h.place hc with ⟨rfl, rfl⟩ | ⟨j, rfl, hc, hc', hl⟩
      · rw [h.noParent] at hparent; cases hparent
      · exact ⟨_, _, .reap hnext hc hended hreaped, by simp [hprocesses], h.noParent, set h.children hc' hl⟩
    · exact absurd hnext ((next_leaf hleaf hl).2 s)
  | @childless i p s hp hnext hnone =>
    rcases h.place hp with ⟨rfl, rfl⟩ | ⟨j, -, -, -, hl⟩
    · refine ⟨_, _, .childless hnext fun c hc => ?_, by simp [hprocesses], h.noParent, h.children⟩
      exact hnone c (by simp [hprocesses, hc]) (h.children c hc).1
    · exact absurd hnext ((next_leaf hleaf hl).2 s)
  | @called i b p k hp hnext =>
    rcases h.place hp with ⟨rfl, rfl⟩ | ⟨j, rfl, hc, hc', hl⟩
    · exact ⟨_, _, .call (b := b) hnext, by simp [hprocesses], h.noParent, h.children⟩
    · refine ⟨_, _, .child (b := b) hc hnext, by simp [hprocesses], h.noParent, set h.children hc' ?_⟩
      rcases hleaf _ hl with hended | ⟨k', hk', hleaf'⟩
      · rw [hnext] at hended; cases hended
      · obtain rfl : k' = k := by rw [hnext] at hk'; cases hk'; rfl
        exact hleaf' b

theorem ended_of_final (hleaf : Leaves next leaf) (h : Family leaf σ parent children)
    (hfinal : Final (Table.step next forks) σ) :
    (next parent.state).isEnded = true ∧ ∀ c ∈ children, (next c.state).isEnded = true := by
  have hparent : σ.processes[0]? = some parent := by rw [h.processes]; rfl
  have hchildren : ∀ c ∈ children, (next c.state).isEnded = true := by
    intro c hc
    rcases hleaf c.state (h.children c hc).2 with hended | ⟨k, hk, -⟩
    · exact hended
    · obtain ⟨j, hj⟩ := List.getElem?_of_mem (h.processes ▸ List.mem_cons_of_mem parent hc)
      have hcall : Table.Step next forks σ (.call j true) _ := .called hj hk
      exact absurd hfinal (Table.not_final hcall)
  refine ⟨?_, hchildren⟩
  cases hnext : next parent.state with
  | ended => rfl
  | fork k =>
    cases hforks : forks σ.calls with
    | true => exact absurd hfinal (Table.not_final (.forked hparent hnext hforks))
    | false => exact absurd hfinal (Table.not_final (.forkFailed hparent hnext hforks))
  | call k =>
    have hcall : Table.Step next forks σ (.call 0 true) _ := .called hparent hnext
    exact absurd hfinal (Table.not_final hcall)
  | wait s =>
    by_cases hall : ∀ c ∈ σ.processes, c.parent = some 0 → c.reaped = true
    · exact absurd hfinal (Table.not_final (.childless hparent hnext hall))
    · push Not at hall
      obtain ⟨c, hc, hc', hreaped⟩ := hall
      obtain ⟨j, hj⟩ := List.getElem?_of_mem hc
      have hmem : c ∈ children := by
        rw [h.processes] at hc
        rcases List.mem_cons.mp hc with rfl | hc
        · rw [h.noParent] at hc'; cases hc'
        · exact hc
      exact absurd hfinal (Table.not_final (.reaped hparent hnext hj hc' (hchildren c hmem)
        (eq_false_of_ne_true hreaped)))

end Family

/-! ### The children that have not ended -/

def running (next : S → Action S) (children : List (Process S)) : Nat :=
  children.countP fun c => !(next c.state).isEnded

theorem running_append (next : S → Action S) (children : List (Process S)) (c : Process S) :
    running next (children ++ [c]) ≤ running next children + 1 := by
  rw [running, List.countP_append]
  exact Nat.add_le_add_left List.countP_le_length _

theorem countP_set {α : Type*} {l : List α} {a : α} {j : Nat} (P : α → Bool) (a' : α) (h : l[j]? = some a) :
    (l.set j a').countP P + (if P a then 1 else 0) = l.countP P + if P a' then 1 else 0 := by
  obtain ⟨hj, rfl⟩ := List.getElem?_eq_some_iff.mp h
  have hsplit : l = l.take j ++ l[j] :: l.drop (j + 1) := by simp
  have hset : l.set j a' = l.take j ++ a' :: l.drop (j + 1) :=
    List.set_eq_take_append_cons_drop.trans (if_pos hj)
  rw [hset]
  conv => rhs; rw [hsplit]
  simp only [List.countP_append, List.countP_cons]
  omega

/-! ### Runs -/

section Runs

variable {leaf : S → Prop} {σ : Table S} {events : List Event} {s : S}

/-- What the moves keep holds in every run of a process that makes a family, and what they lower
bounds its length. -/
theorem family_of_run (I : Process S → List (Process S) → Nat → Prop) (μ : Process S → List (Process S) → Nat)
    (hleaf : Leaves next leaf)
    (hfork : ∀ parent children calls k, I parent children calls → next parent.state = .fork k → leaf (k 0))
    (hmove : ∀ parent children calls parent' children' calls', I parent children calls →
      (∀ c ∈ children, leaf c.state) → Move next forks parent children calls parent' children' calls' →
        I parent' children' calls' ∧ μ parent' children' < μ parent children)
    (hs : I ⟨none, s, false⟩ [] 0) (hr : run (Table.step next forks) (Table.start s) events = some σ) :
    ∃ parent children, Family leaf σ parent children ∧ I parent children σ.calls ∧
      events.length + μ parent children ≤ μ ⟨none, s, false⟩ [] := by
  have go : ∀ {events σ₀ parent children}, Family leaf σ₀ parent children → I parent children σ₀.calls →
      run (Table.step next forks) σ₀ events = some σ → ∃ parent' children', Family leaf σ parent' children' ∧
        I parent' children' σ.calls ∧ events.length + μ parent' children' ≤ μ parent children := by
    intro events
    induction events with
    | nil =>
      intro σ₀ parent children hfamily hinv hr
      cases hr
      exact ⟨parent, children, hfamily, hinv, Nat.le_of_eq (Nat.zero_add _)⟩
    | cons e events ih =>
      intro σ₀ parent children hfamily hinv hr
      obtain ⟨σ₁, hs, hr⟩ := run_cons_eq_some.mp hr
      obtain ⟨parent₁, children₁, hm, hfamily₁⟩ :=
        hfamily.step hleaf (fun k => hfork parent children σ₀.calls k hinv) hs
      obtain ⟨hinv₁, hlt⟩ := hmove _ _ _ _ _ _ hinv (fun c hc => (hfamily.children c hc).2) hm
      obtain ⟨parent', children', hfamily', hinv', hle⟩ := ih hfamily₁ hinv₁ hr
      exact ⟨parent', children', hfamily', hinv', by rw [List.length_cons]; omega⟩
  exact go (Family.start s) hs hr

end Runs

end OsExercises.Processes
