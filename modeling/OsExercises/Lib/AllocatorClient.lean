import OsExercises.Lib.Transition

/-!
# Clients of an allocator

A client asks for memory, gives it back and stores bytes in what it owns. `View` is what the client
knows: the live pointers with the sizes asked for, every pointer it ever got, and the answers of
`malloc` in order. `permits` is the contract it keeps, a condition on its own view. Two allocators
whose heaps are related by a `Simulation` give every client the same view (`Simulation.run`); if the
second one ignores stores, what clients store cannot influence what they are handed
(`Simulation.noninterference`).
-/

namespace OsExercises

/-- `none` is undefined behaviour or non-termination; the pointer `0` is a refused request. -/
@[ext] structure Allocator (H : Type*) where
  malloc : Nat → H → Option (H × Nat)
  free : Nat → H → Option H
  write : Nat → UInt8 → H → H

namespace Client
open Transition

inductive Op where
  | malloc (size : Nat)
  | free (p : Nat)
  /-- Stores a byte at offset `off` of the payload at `p`. -/
  | write (p off : Nat) (x : UInt8)
deriving DecidableEq

def Op.isCall : Op → Bool
  | .write .. => false
  | _ => true

structure View where
  /-- Live pointers and the sizes asked for. -/
  live : List (Nat × Nat)
  returned : List Nat
  trace : List Nat
deriving DecidableEq

namespace View

def empty : View := ⟨[], [], []⟩

def pointers (v : View) : List Nat := v.live.map Prod.fst

def record (v : View) (size p : Nat) : View :=
  if p = 0 then { v with trace := v.trace ++ [0] }
  else ⟨(p, size) :: v.live, p :: v.returned, v.trace ++ [p]⟩

def release (v : View) (p : Nat) : View := { v with live := v.live.filter fun x => x.1 ≠ p }

theorem record_of_ne {p : Nat} (v : View) (size : Nat) (hp : p ≠ 0) :
    v.record size p = ⟨(p, size) :: v.live, p :: v.returned, v.trace ++ [p]⟩ := if_neg hp

theorem mem_pointers {v : View} {p : Nat} : p ∈ v.pointers ↔ ∃ size, (p, size) ∈ v.live := by
  simp [pointers]

theorem mem_release {v : View} {p : Nat} {x : Nat × Nat} :
    x ∈ (v.release p).live ↔ x ∈ v.live ∧ x.1 ≠ p := by
  simp [release]

theorem mem_pointers_release {v : View} {p q : Nat} :
    q ∈ (v.release p).pointers ↔ q ∈ v.pointers ∧ q ≠ p := by
  simp only [mem_pointers, mem_release]
  exact ⟨fun ⟨n, h, hne⟩ => ⟨⟨n, h⟩, hne⟩, fun ⟨⟨n, h⟩, hne⟩ => ⟨n, h, hne⟩⟩

end View

structure Session (H : Type*) where
  heap : H
  view : View

variable {H K : Type*} {A : Allocator H} {B : Allocator K} {permits : View → Op → Bool}

def exec (A : Allocator H) (σ : Session H) : Op → Option (Session H)
  | .malloc size => (A.malloc size σ.heap).map fun r => ⟨r.1, σ.view.record size r.2⟩
  | .free p => (A.free p σ.heap).map fun h => ⟨h, σ.view.release p⟩
  | .write p off x => some ⟨A.write (p + off) x σ.heap, σ.view⟩

/-- One operation of a client that keeps the contract. -/
def step (A : Allocator H) (permits : View → Op → Bool) (σ : Session H) (op : Op) :
    Option (Session H) :=
  if permits σ.view op then exec A σ op else none

theorem step_malloc_eq_some {σ σ' : Session H} {size : Nat} :
    step A permits σ (.malloc size) = some σ' ↔ permits σ.view (.malloc size) = true ∧
      ∃ h p, A.malloc size σ.heap = some (h, p) ∧ σ' = ⟨h, σ.view.record size p⟩ := by
  simp only [step, exec, Option.ite_none_right_eq_some, Option.map_eq_some_iff, Prod.exists]
  exact and_congr_right fun _ => exists₂_congr fun _ _ => and_congr_right fun _ => eq_comm

theorem step_free_eq_some {σ σ' : Session H} {p : Nat} :
    step A permits σ (.free p) = some σ' ↔ permits σ.view (.free p) = true ∧
      ∃ h, A.free p σ.heap = some h ∧ σ' = ⟨h, σ.view.release p⟩ := by
  simp only [step, exec, Option.ite_none_right_eq_some, Option.map_eq_some_iff]
  exact and_congr_right fun _ => exists_congr fun _ => and_congr_right fun _ => eq_comm

theorem step_write_eq_some {σ σ' : Session H} {p off : Nat} {x : UInt8} :
    step A permits σ (.write p off x) = some σ' ↔ permits σ.view (.write p off x) = true ∧
      σ' = ⟨A.write (p + off) x σ.heap, σ.view⟩ := by
  simp only [step, exec, Option.ite_none_right_eq_some, Option.some.injEq]
  exact and_congr_right fun _ => eq_comm

/-! ### Simulation -/

/-- `R` relates a heap, the client's view and the other heap so that permitted operations of the
first allocator are matched by the second with the same answers. -/
structure Simulation (A : Allocator H) (B : Allocator K) (permits : View → Op → Bool)
    (R : H → View → K → Prop) : Prop where
  malloc : ∀ h v k size h' p, R h v k → permits v (.malloc size) = true →
    A.malloc size h = some (h', p) → ∃ k', B.malloc size k = some (k', p) ∧ R h' (v.record size p) k'
  free : ∀ h v k p h', R h v k → permits v (.free p) = true →
    A.free p h = some h' → ∃ k', B.free p k = some k' ∧ R h' (v.release p) k'
  write : ∀ h v k p off x, R h v k → permits v (.write p off x) = true →
    R (A.write (p + off) x h) v (B.write (p + off) x k)

variable {R : H → View → K → Prop}

theorem Simulation.step (hsim : Simulation A B permits R) {h : H} {v : View} {k : K} {op : Op}
    {σ : Session H} (hR : R h v k) (hs : Client.step A permits ⟨h, v⟩ op = some σ) :
    ∃ k', Client.step B permits ⟨k, v⟩ op = some ⟨k', σ.view⟩ ∧ R σ.heap σ.view k' := by
  cases op with
  | malloc size =>
    obtain ⟨hp, h', p, hm, rfl⟩ := step_malloc_eq_some.1 hs
    obtain ⟨k', hk, hR'⟩ := hsim.malloc h v k size h' p hR hp hm
    exact ⟨k', step_malloc_eq_some.2 ⟨hp, k', p, hk, rfl⟩, hR'⟩
  | free p =>
    obtain ⟨hp, h', hf, rfl⟩ := step_free_eq_some.1 hs
    obtain ⟨k', hk, hR'⟩ := hsim.free h v k p h' hR hp hf
    exact ⟨k', step_free_eq_some.2 ⟨hp, k', hk, rfl⟩, hR'⟩
  | write p off x =>
    obtain ⟨hp, rfl⟩ := step_write_eq_some.1 hs
    exact ⟨_, step_write_eq_some.2 ⟨hp, rfl⟩, hsim.write h v k p off x hR hp⟩

theorem Simulation.run (hsim : Simulation A B permits R) {h : H} {v : View} {k : K} {ops : List Op}
    {σ : Session H} (hR : R h v k) (hr : Transition.run (Client.step A permits) ⟨h, v⟩ ops = some σ) :
    ∃ k', Transition.run (Client.step B permits) ⟨k, v⟩ ops = some ⟨k', σ.view⟩ ∧
      R σ.heap σ.view k' := by
  induction ops generalizing h v k with
  | nil => cases hr; exact ⟨k, rfl, hR⟩
  | cons op ops ih =>
    obtain ⟨τ, hτ, hr⟩ := run_cons_eq_some.1 hr
    obtain ⟨k', hk, hR'⟩ := hsim.step hR hτ
    obtain ⟨k'', hk', hR''⟩ := ih hR' hr
    exact ⟨k'', by rw [run_cons_of_eq hk]; exact hk', hR''⟩

/-- An allocator that ignores stores runs the same without them. -/
theorem run_filter_calls (hB : ∀ a x k, B.write a x k = k) {σ τ : Session K} {ops : List Op}
    (hr : Transition.run (step B permits) σ ops = some τ) :
    Transition.run (step B permits) σ (ops.filter Op.isCall) = some τ := by
  induction ops generalizing σ with
  | nil => exact hr
  | cons op ops ih =>
    obtain ⟨σ', hs, hr'⟩ := run_cons_eq_some.1 hr
    cases op with
    | malloc size => exact run_cons_eq_some.2 ⟨σ', hs, ih hr'⟩
    | free p => exact run_cons_eq_some.2 ⟨σ', hs, ih hr'⟩
    | write p off x =>
      obtain ⟨-, rfl⟩ := step_write_eq_some.1 hs
      rw [hB] at hr'
      exact ih hr'

/-- Two clients that make the same calls and store different bytes end with the same view. -/
theorem Simulation.noninterference (hsim : Simulation A B permits R)
    (hB : ∀ a x k, B.write a x k = k) {h₁ h₂ : H} {v : View} {k : K} {ops₁ ops₂ : List Op}
    {σ₁ σ₂ : Session H} (hR₁ : R h₁ v k) (hR₂ : R h₂ v k)
    (hcalls : ops₁.filter Op.isCall = ops₂.filter Op.isCall)
    (hr₁ : Transition.run (Client.step A permits) ⟨h₁, v⟩ ops₁ = some σ₁)
    (hr₂ : Transition.run (Client.step A permits) ⟨h₂, v⟩ ops₂ = some σ₂) : σ₁.view = σ₂.view := by
  obtain ⟨k₁, hk₁, -⟩ := hsim.run hR₁ hr₁
  obtain ⟨k₂, hk₂, -⟩ := hsim.run hR₂ hr₂
  have hrun₁ := run_filter_calls hB hk₁
  have hrun₂ := run_filter_calls hB hk₂
  rw [hcalls, hrun₂] at hrun₁
  exact (congrArg Session.view (Option.some.inj hrun₁)).symm

end Client
end OsExercises
