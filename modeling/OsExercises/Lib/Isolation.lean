import OsExercises.Lib.AccessProgram
import OsExercises.Lib.Transition
import Mathlib.Data.Set.Lattice
import Mathlib.Order.CompletePartialOrder

/-!
# Threads with regions of their own

Threads make calls whose accesses to one memory interleave in any order. When the calls of each thread
stay in a region of its own (`Contract`), a thread cannot tell that there are others: what it has computed
is what the same calls compute one after the other without the other threads (`isolated`).
-/

namespace OsExercises
open Transition

/-- A thread and the call it is in, if any. -/
structure Thread (C L : Type*) where
  state : L
  calls : List C
  current : Option (C × MemProgram L)

structure Threads (T C L : Type*) where
  mem : Mem
  thread : T → Thread C L

namespace Threads

inductive Event (T C : Type*) where
  | call (t : T) (c : C)
  /-- The next access of the call that `t` is in. -/
  | access (t : T)
  | leave (t : T)

def Event.thread {T C : Type*} : Event T C → T
  | call t _ => t
  | access t => t
  | leave t => t

variable {T C L : Type*} {body : T → L → C → Option (MemProgram L)} {R : T → Set Nat}
  {I : T → L → Mem → Prop} {σ σ' : Threads T C L} {e : Event T C} {events : List (Event T C)}
  {init : T → L} {m₀ : Mem}

def start (init : T → L) (m : Mem) : Threads T C L := ⟨m, fun t => ⟨init t, [], none⟩⟩

/-- `body t l c` is the program of the call `c`; a call that the thread may not make has none. -/
def step [DecidableEq T] (body : T → L → C → Option (MemProgram L)) (σ : Threads T C L) :
    Event T C → Option (Threads T C L)
  | .call t c =>
    let th := σ.thread t
    match th.current with
    | some _ => none
    | none => (body t th.state c).map fun p =>
        { σ with thread := Function.update σ.thread t { th with current := some (c, p) } }
  | .access t =>
    let th := σ.thread t
    match th.current with
    | some (c, .access x k) => some
        ⟨x.effect σ.mem, Function.update σ.thread t { th with current := some (c, k (x.result σ.mem)) }⟩
    | _ => none
  | .leave t =>
    let th := σ.thread t
    match th.current with
    | some (c, .done l) => some { σ with thread := Function.update σ.thread t ⟨l, th.calls ++ [c], none⟩ }
    | _ => none

/-- A whole call of `t` without the other threads. -/
def alone (body : T → L → C → Option (MemProgram L)) (t : T) (s : L × Mem) (c : C) : Option (L × Mem) :=
  (body t s.1 c).bind fun p => p.run s.2

/-- Calls keep `I`, which is about the region of the thread only, come to an end and stay in that region. -/
structure Contract (body : T → L → C → Option (MemProgram L)) (R : T → Set Nat) (I : T → L → Mem → Prop) :
    Prop where
  disjoint : Pairwise fun t u => Disjoint (R t) (R u)
  inside : ∀ t l m m', I t l m → Set.EqOn m m' (R t) → I t l m'
  call : ∀ t l m c p, I t l m → body t l c = some p → p.Within (R t) m ∧
    ∃ l' m', p.run m = some (l', m') ∧ I t l' m'

/-- The thread has got as far as it would have without the others: `m` is what the memory would be after
the calls it has finished. -/
structure Alone (body : T → L → C → Option (MemProgram L)) (R : T → Set Nat) (I : T → L → Mem → Prop) (l₀ : L)
    (m₀ : Mem) (t : T) (th : Thread C L) (mem m : Mem) : Prop where
  calls : run (alone body t) (l₀, m₀) th.calls = some (th.state, m)
  inv : I t th.state m
  current : match th.current with
    | none => Set.EqOn m mem (R t)
    | some (c, p) => p.Within (R t) mem ∧ ∃ s m₁, alone body t (th.state, m) c = some s ∧
        I t s.1 s.2 ∧ p.run mem = some (s.1, m₁) ∧ Set.EqOn s.2 m₁ (R t)

namespace Alone

variable {l₀ : L} {t : T} {th : Thread C L} {mem mem' m : Mem} {c : C} {p : MemProgram L} {l : L} {x : Access}
  {k : Nat → MemProgram L}

theorem start (h : I t l₀ m₀) : Alone body R I l₀ m₀ t ⟨l₀, [], none⟩ m₀ m₀ :=
  ⟨rfl, h, Set.eqOn_refl _ _⟩

/-- The other threads have only changed what is outside of the region. -/
theorem other (h : Alone body R I l₀ m₀ t th mem m) (hm : Set.EqOn mem mem' (R t)) :
    Alone body R I l₀ m₀ t th mem' m := by
  obtain ⟨hcalls, hinv, hcurrent⟩ := h
  refine ⟨hcalls, hinv, ?_⟩
  split at hcurrent
  · exact hcurrent.trans hm
  · obtain ⟨hwithin, s, m₁, halone, hs, hrun, heq⟩ := hcurrent
    obtain ⟨m₂, hrun', heq'⟩ := MemProgram.run_congr hwithin hm hrun
    exact ⟨hwithin.congr hm, s, m₂, halone, hs, hrun', heq.trans heq'⟩

theorem call (hC : Contract body R I) (h : Alone body R I l₀ m₀ t th mem m) (hnone : th.current = none)
    (hp : body t th.state c = some p) :
    Alone body R I l₀ m₀ t { th with current := some (c, p) } mem m := by
  obtain ⟨hcalls, hinv, hcurrent⟩ := h
  rw [hnone] at hcurrent
  obtain ⟨hwithin, l', m', hrun, hinv'⟩ := hC.call t th.state m c p hinv hp
  obtain ⟨m₁, hrun', heq⟩ := MemProgram.run_congr hwithin hcurrent hrun
  refine ⟨hcalls, hinv, hwithin.congr hcurrent, (l', m'), m₁, ?_, hinv', hrun', heq⟩
  rw [alone, hp, Option.bind_some]
  exact hrun

theorem within (h : Alone body R I l₀ m₀ t th mem m) (hx : th.current = some (c, .access x k)) :
    x.Within (R t) := by
  have hcurrent := h.current
  rw [hx] at hcurrent
  exact hcurrent.1.1

theorem access (h : Alone body R I l₀ m₀ t th mem m) (hx : th.current = some (c, .access x k)) :
    Alone body R I l₀ m₀ t { th with current := some (c, k (x.result mem)) } (x.effect mem) m := by
  obtain ⟨hcalls, hinv, hcurrent⟩ := h
  rw [hx] at hcurrent
  obtain ⟨⟨-, hwithin⟩, s, m₁, halone, hs, hrun, heq⟩ := hcurrent
  exact ⟨hcalls, hinv, hwithin, s, m₁, halone, hs, hrun, heq⟩

theorem leave (h : Alone body R I l₀ m₀ t th mem m) (hl : th.current = some (c, .done l)) :
    ∃ m', Alone body R I l₀ m₀ t ⟨l, th.calls ++ [c], none⟩ mem m' := by
  obtain ⟨hcalls, hinv, hcurrent⟩ := h
  rw [hl] at hcurrent
  obtain ⟨-, ⟨l', m'⟩, m₁, halone, hs, hrun, heq⟩ := hcurrent
  cases hrun
  refine ⟨m', ?_, hs, heq⟩
  exact run_append_eq_some.mpr ⟨_, hcalls, run_cons_eq_some.mpr ⟨_, halone, rfl⟩⟩

/-- A call does not get stuck. -/
theorem goesOn [DecidableEq T] (h : Alone body R I l₀ m₀ t (σ.thread t) σ.mem m)
    (hcurrent : (σ.thread t).current ≠ none) :
    ∃ e : Event T C, e.thread = t ∧ (step body σ e).isSome := by
  cases hp : (σ.thread t).current with
  | none => exact absurd hp hcurrent
  | some q =>
    obtain ⟨c, p⟩ := q
    have hnext := h.current
    rw [hp] at hnext
    obtain ⟨-, s, m₁, -, -, hrun, -⟩ := hnext
    cases p with
    | done l => exact ⟨.leave t, rfl, by rw [step, hp]; rfl⟩
    | undefined => cases hrun
    | access x k => exact ⟨.access t, rfl, by rw [step, hp]; rfl⟩

end Alone

/-! ### All threads -/

def Isolated (body : T → L → C → Option (MemProgram L)) (R : T → Set Nat) (I : T → L → Mem → Prop) (init : T → L)
    (m₀ : Mem) (σ : Threads T C L) : Prop :=
  ∀ t, ∃ m, Alone body R I (init t) m₀ t (σ.thread t) σ.mem m

namespace Isolated

variable [DecidableEq T]

/-- One thread has moved and has changed the bytes of its own region at most. -/
theorem moved (hC : Contract body R I) (h : Isolated body R I init m₀ σ) {t : T} {th : Thread C L} {mem m : Mem}
    (hmem : ∀ b ∉ R t, mem b = σ.mem b) (hth : Alone body R I (init t) m₀ t th mem m) :
    Isolated body R I init m₀ ⟨mem, Function.update σ.thread t th⟩ := by
  intro u
  by_cases hu : u = t
  · subst hu
    refine ⟨m, ?_⟩
    simp only [Function.update_self]
    exact hth
  · obtain ⟨m', hm'⟩ := h u
    refine ⟨m', ?_⟩
    simp only [Function.update_of_ne hu]
    refine hm'.other fun b hb => (hmem b ?_).symm
    exact Set.disjoint_left.mp (hC.disjoint hu) hb

theorem step (hC : Contract body R I) (h : Isolated body R I init m₀ σ) (hs : step body σ e = some σ') :
    Isolated body R I init m₀ σ' := by
  obtain ⟨m, ht⟩ := h e.thread
  cases e with
  | call t c =>
    simp only [Threads.step] at hs
    split at hs
    · cases hs
    · next hnone =>
      obtain ⟨p, hp, rfl⟩ := Option.map_eq_some_iff.mp hs
      exact h.moved hC (fun _ _ => rfl) (ht.call hC hnone hp)
  | access t =>
    simp only [Threads.step] at hs
    split at hs
    · next c x k hx =>
      cases hs
      exact h.moved hC (fun b hb => Access.effect_apply_of_notMem (ht.within hx) hb) (ht.access hx)
    · cases hs
  | leave t =>
    simp only [Threads.step] at hs
    split at hs
    · next c l hl =>
      cases hs
      obtain ⟨m', hm'⟩ := ht.leave hl
      exact h.moved hC (fun _ _ => rfl) hm'
    · cases hs

end Isolated

theorem isolated [DecidableEq T] (hC : Contract body R I) (h₀ : ∀ t, I t (init t) m₀)
    (hr : run (step body) (start init m₀) events = some σ) : Isolated body R I init m₀ σ :=
  run_inv (fun _ _ _ h hs => h.step hC hs) (fun t => ⟨m₀, .start (h₀ t)⟩) hr

end Threads
end OsExercises
