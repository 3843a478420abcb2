import OsExercises.Lib.ByteMemory
import OsExercises.Lib.Loop
import Mathlib.Data.Set.Function

/-!
# Programs that access memory

A `MemProgram` is a computation in which each access to the memory is a step of its own, so that other
threads can come in between. `run` makes all accesses in a row; `Within R m` says that those made from
`m` on stay inside the region `R`. Such a program depends on the bytes of `R` only (`run_congr`), and its
accesses leave the others alone (`Access.effect_apply_of_notMem`).
-/

namespace OsExercises

inductive Access where
  | load (a n : Nat)
  | store (a n v : Nat)
  | poke (a : Nat) (x : UInt8)
  /-- Fresh pages are mapped. -/
  | clear (a n : Nat)
deriving DecidableEq

namespace Access

variable {x : Access} {R : Set Nat} {m m' : Mem} {b : Nat}

/-- The first address and how many bytes are accessed. -/
def range : Access → Nat × Nat
  | load a n => (a, n)
  | store a n _ => (a, n)
  | poke a _ => (a, 1)
  | clear a n => (a, n)

/-- What is read; an access that reads nothing gives `0`. -/
def result (m : Mem) : Access → Nat
  | load a n => m.load a n
  | _ => 0

def effect (m : Mem) : Access → Mem
  | load _ _ => m
  | store a n v => m.store a n v
  | poke a x => m.poke a x
  | clear a n => m.clear a n

def Within (R : Set Nat) (x : Access) : Prop := ∀ b, x.range.1 ≤ b → b < x.range.1 + x.range.2 → b ∈ R

theorem result_congr (hx : x.Within R) (hm : Set.EqOn m m' R) : x.result m' = x.result m := by
  cases x with
  | load a n => exact Mem.load_congr fun b h1 h2 => (hm (hx b h1 h2)).symm
  | _ => rfl

theorem effect_congr (hm : Set.EqOn m m' R) : Set.EqOn (x.effect m) (x.effect m') R := by
  intro b hb
  have hmb := hm hb
  cases x with
  | load a n => exact hmb
  | store a n v =>
    by_cases h : a ≤ b ∧ b < a + n
    · exact (Mem.store_apply_of_mem h.1 h.2).trans (Mem.store_apply_of_mem h.1 h.2).symm
    · simp only [effect, Mem.store_apply_of_notMem (m := m) (show b < a ∨ a + n ≤ b by omega),
        Mem.store_apply_of_notMem (m := m') (show b < a ∨ a + n ≤ b by omega), hmb]
  | poke a y => simp only [effect, Mem.poke, hmb]
  | clear a n => simp only [effect, Mem.clear, hmb]

theorem effect_apply_of_notMem (hx : x.Within R) (hb : b ∉ R) : x.effect m b = m b := by
  have hout : ¬ (x.range.1 ≤ b ∧ b < x.range.1 + x.range.2) := fun h => hb (hx b h.1 h.2)
  cases x with
  | load a n => rfl
  | store a n v =>
    refine Mem.store_apply_of_notMem ?_
    simp only [range] at hout
    omega
  | poke a y =>
    refine if_neg ?_
    simp only [range] at hout
    omega
  | clear a n => exact if_neg hout

end Access

inductive MemProgram (α : Type*) where
  | done (r : α)
  /-- Undefined behaviour, or a loop that does not end. -/
  | undefined
  | access (x : Access) (k : Nat → MemProgram α)

universe u

namespace MemProgram

variable {α β σ : Type*} {R : Set Nat} {p : MemProgram α} {m m' m₁ : Mem} {r : α}

def bind : MemProgram α → (α → MemProgram β) → MemProgram β
  | done r, f => f r
  | undefined, _ => undefined
  | access x k, f => access x fun n => (k n).bind f

instance : Monad MemProgram where
  pure := done
  bind := bind

theorem bind_eq {α β : Type u} (p : MemProgram α) (f : α → MemProgram β) : p >>= f = p.bind f := rfl

/-- A computation without accesses. -/
def ofOption : Option α → MemProgram α
  | some r => done r
  | none => undefined

def run : MemProgram α → Mem → Option (α × Mem)
  | done r, m => some (r, m)
  | undefined, _ => none
  | access x k, m => (k (x.result m)).run (x.effect m)

def Within (R : Set Nat) : MemProgram α → Mem → Prop
  | done _, _ => True
  | undefined, _ => True
  | access x k, m => x.Within R ∧ (k (x.result m)).Within R (x.effect m)

/-- `while (cond) body` with at most `fuel` tests of the condition. -/
def whileLoop (cond : σ → MemProgram Bool) (body : σ → MemProgram σ) : Nat → σ → MemProgram σ
  | 0, _ => undefined
  | fuel + 1, s => (cond s).bind fun going => if going then (body s).bind (whileLoop cond body fuel) else done s

/-! ### All accesses in a row -/

theorem run_bind (p : MemProgram α) (f : α → MemProgram β) (m : Mem) :
    (p.bind f).run m = (p.run m).bind fun s => (f s.1).run s.2 := by
  induction p generalizing m with
  | done r => rfl
  | undefined => rfl
  | access x k ih => exact ih _ _

theorem run_ofOption (o : Option α) (m : Mem) : (ofOption o).run m = o.map fun r => (r, m) := by
  cases o <;> rfl

/-- A loop does what its condition and its body do: `g` takes the state of another loop apart into what
the program carries along and the memory. -/
theorem run_whileLoop {τ : Type*} {g : τ → σ × Mem} {cond : σ → MemProgram Bool} {body : σ → MemProgram σ}
    {going : τ → Bool} {next : τ → Option τ}
    (hcond : ∀ t, (cond (g t).1).run (g t).2 = some (going t, (g t).2))
    (hbody : ∀ t, going t = true → (body (g t).1).run (g t).2 = (next t).map g) (fuel : Nat) (t : τ) :
    (whileLoop cond body fuel (g t).1).run (g t).2 = (OsExercises.whileLoop going next fuel t).map g := by
  induction fuel generalizing t with
  | zero => rw [whileLoop, OsExercises.whileLoop, run, Option.map_none]
  | succ fuel ih =>
    rw [whileLoop, run_bind, hcond, Option.bind_some]
    cases hgoing : going t with
    | false =>
      rw [whileLoop_exit (Nat.succ_pos fuel) hgoing]
      rfl
    | true =>
      simp only [if_true, run_bind, hbody t hgoing]
      cases hnext : next t with
      | none => rw [whileLoop_undefined hgoing hnext, Option.map_none, Option.bind_none]
      | some u =>
        rw [whileLoop_step hgoing hnext, Option.map_some, Option.bind_some]
        exact ih u

/-! ### The region that is accessed -/

theorem within_bind {f : α → MemProgram β} :
    (p.bind f).Within R m ↔ p.Within R m ∧ ∀ r m', p.run m = some (r, m') → (f r).Within R m' := by
  induction p generalizing m with
  | done r =>
    refine ⟨fun h => ⟨trivial, ?_⟩, fun h => h.2 r m rfl⟩
    rintro r' m' hr
    cases hr
    exact h
  | undefined => exact ⟨fun _ => ⟨trivial, nofun⟩, fun _ => trivial⟩
  | access x k ih => exact (and_congr_right fun _ => ih _).trans and_assoc.symm

theorem within_ofOption (o : Option α) : (ofOption o).Within R m := by
  cases o <;> trivial

theorem within_whileLoop {cond : σ → MemProgram Bool} {body : σ → MemProgram σ} {I : σ → Mem → Prop}
    (hcond : ∀ s m, I s m → (cond s).Within R m)
    (hbody : ∀ s m m', I s m → (cond s).run m = some (true, m') → (body s).Within R m' ∧
      ∀ s' m'', (body s).run m' = some (s', m'') → I s' m'')
    {fuel : Nat} {s : σ} {m : Mem} (h : I s m) : (whileLoop cond body fuel s).Within R m := by
  induction fuel generalizing s m with
  | zero => trivial
  | succ fuel ih =>
    refine within_bind.mpr ⟨hcond s m h, fun going m' hgoing => ?_⟩
    cases going with
    | false => trivial
    | true =>
      obtain ⟨hwithin, hnext⟩ := hbody s m m' h hgoing
      exact within_bind.mpr ⟨hwithin, fun s' m'' hs => ih (hnext s' m'' hs)⟩

theorem Within.congr (hp : p.Within R m) (hm : Set.EqOn m m' R) : p.Within R m' := by
  induction p generalizing m m' with
  | done r => trivial
  | undefined => trivial
  | access x k ih =>
    obtain ⟨hx, hk⟩ := hp
    refine ⟨hx, ?_⟩
    rw [Access.result_congr hx hm]
    exact ih _ hk (Access.effect_congr hm)

/-- A program depends on the bytes of its region only. -/
theorem run_congr (hp : p.Within R m) (hm : Set.EqOn m m' R) (hr : p.run m = some (r, m₁)) :
    ∃ m₂, p.run m' = some (r, m₂) ∧ Set.EqOn m₁ m₂ R := by
  induction p generalizing m m' with
  | done r' =>
    cases hr
    exact ⟨m', rfl, hm⟩
  | undefined => cases hr
  | access x k ih =>
    obtain ⟨hx, hk⟩ := hp
    rw [run, Access.result_congr hx hm]
    exact ih _ hk (Access.effect_congr hm) hr

end MemProgram
end OsExercises
