import OsExercises.Signals.Model

/-!
# A call of `print_recieved_signals`

What a call does to the counters and the dispositions when no signal arrives meanwhile
(`printRecievedSignals_spec`), and that the steps of the main program are such a call
(`undisturbed_printRecievedSignals`).
-/

namespace OsExercises.Signals
namespace Process

variable {p p' : Process} {sig : Signal}

def reacted (sig : Signal) (disposition : Signal → Disposition) : Signal → Disposition :=
  (reactions sig).foldl (fun d r => Function.update d r.1 r.2) disposition

theorem foldl_sigaction (rs : List (Signal × Disposition)) (p : Process) :
    rs.foldl (fun p r => p.sigaction r.1 r.2) p =
      { p with disposition := rs.foldl (fun d r => Function.update d r.1 r.2) p.disposition } := by
  induction rs generalizing p with
  | nil => rfl
  | cons r rs ih => exact ih _

theorem react_eq : p.react sig = { p with disposition := reacted sig p.disposition } :=
  foldl_sigaction _ p

theorem reacted_idem (disposition : Signal → Disposition) :
    reacted sig (reacted sig disposition) = reacted sig disposition := by
  funext s
  cases sig <;> cases s <;> rfl

theorem body_eq_some (h : body sig p = some p') :
    p' = ((p.react sig).report sig).store sig (p.res sig - 1) := by
  obtain ⟨res, hres, rfl⟩ := Option.map_eq_some_iff.mp h
  rw [(intAdd?_cases hres).1, react_eq]
  rfl

/-! ### One loop -/

/-- What the loop of `sig` leaves behind. -/
structure Drained (sig : Signal) (p p' : Process) : Prop where
  res : p'.res = Function.update p.res sig 0
  disposition : p'.disposition = if p.res sig = 0 then p.disposition else reacted sig p.disposition

theorem drained_of_loop (h : loop sig p = some p') : Drained sig p p' := by
  refine whileLoop_rec (R := Drained sig) ?_ ?_ h
  · intro s hs
    have hres : s.res sig = 0 := not_not.mp (of_decide_eq_false hs)
    exact ⟨by rw [← hres, Function.update_eq_self], by rw [if_pos hres]⟩
  · intro s t u hs hbody hdrained
    have hres : s.res sig ≠ 0 := of_decide_eq_true hs
    rw [body_eq_some hbody, react_eq] at hdrained
    refine ⟨hdrained.res.trans (Function.update_idem ..), hdrained.disposition.trans ?_⟩
    rw [if_neg hres]
    split_ifs
    · rfl
    · exact reacted_idem _

theorem Drained.disposition_eq (h : Drained sig p p') (hsig : reactions sig = []) :
    p'.disposition = p.disposition := by
  rw [h.disposition, reacted, hsig]
  exact ite_self _

/-! ### The six loops -/

structure Polled (p p' : Process) : Prop where
  res : ∀ s, p'.res s = 0
  usr2 : p'.disposition .SIGUSR2 = .ignore ↔
    p.res .SIGUSR1 ≠ 0 ∨ p.res .SIGINT = 0 ∧ p.disposition .SIGUSR2 = .ignore
  usr1 : p'.disposition .SIGUSR1 = .ignore ↔
    p.res .SIGUSR2 ≠ 0 ∨ p.res .SIGINT = 0 ∧ p.disposition .SIGUSR1 = .ignore

theorem printRecievedSignals_spec (h : p.printRecievedSignals = some p') : Polled p p' := by
  simp only [printRecievedSignals, order, List.foldlM_cons, List.foldlM_nil, Option.bind_eq_bind,
    Option.bind_eq_some_iff, Option.pure_def, Option.some.injEq] at h
  obtain ⟨p₁, h₁, p₂, h₂, p₃, h₃, p₄, h₄, p₅, h₅, p₆, h₆, rfl⟩ := h
  have h₁ := drained_of_loop h₁
  have h₂ := drained_of_loop h₂
  have h₃ := drained_of_loop h₃
  have h₄ := drained_of_loop h₄
  have h₅ := drained_of_loop h₅
  have h₆ := drained_of_loop h₆
  have hint : p₄.disposition =
      if p.res .SIGINT = 0 then p.disposition else reacted .SIGINT p.disposition := by
    rw [h₄.disposition_eq rfl, h₃.disposition_eq rfl, h₂.disposition_eq rfl, h₁.disposition]
  have hres₄ : p₄.res .SIGUSR1 = p.res .SIGUSR1 := by rw [h₄.res, h₃.res, h₂.res, h₁.res]; rfl
  have hres₅ : p₅.res .SIGUSR2 = p.res .SIGUSR2 := by
    rw [h₅.res, h₄.res, h₃.res, h₂.res, h₁.res]; rfl
  have hdisposition := h₆.disposition
  rw [h₅.disposition, hres₅, hres₄, hint] at hdisposition
  refine ⟨?_, ?_, ?_⟩
  · intro s
    rw [h₆.res, h₅.res, h₄.res, h₃.res, h₂.res, h₁.res]
    cases s <;> rfl
  · rw [hdisposition]
    split_ifs with husr2 husr1 hsigint hsigint husr1 hsigint hsigint <;>
      simp [reacted, reactions, *]
  · rw [hdisposition]
    split_ifs with husr2 husr1 hsigint hsigint husr1 hsigint hsigint <;>
      simp [reacted, reactions, *]

/-! ### A call returns -/

theorem store_res_self (res : Int) : (p.store sig res).res sig = res := Function.update_self ..

theorem body_isSome (h : 0 < p.res sig) (hmax : p.res sig ≤ INT_MAX) :
    ∃ p', body sig p = some p' ∧ p'.res sig = p.res sig - 1 := by
  have hres : intAdd? (p.res sig) (-1) = some (p.res sig - 1) :=
    intAdd?_eq_some rfl (by unfold INT_MIN; omega) (by omega)
  exact ⟨_, by rw [body, hres]; rfl, store_res_self _⟩

/-- The counter bounds the rounds. -/
theorem whileLoop_isSome (k : Nat) (hk : p.res sig = k) (hmax : (k : Int) ≤ INT_MAX) :
    ∃ p', whileLoop (pending sig) (body sig) (k + 1) p = some p' := by
  induction k generalizing p with
  | zero =>
    refine ⟨p, whileLoop_exit (by omega) (decide_eq_false ?_)⟩
    exact not_not.mpr hk
  | succ k ih =>
    have hpos : 0 < p.res sig := by omega
    have hpending : pending sig p = true := decide_eq_true (Int.ne_of_gt hpos)
    obtain ⟨t, hbody, ht⟩ := body_isSome hpos (by omega)
    rw [whileLoop_step hpending hbody]
    exact ih (by omega) (by omega)

/-- No counter has overflowed. -/
def InRange (p : Process) : Prop := ∀ sig, 0 ≤ p.res sig ∧ p.res sig ≤ INT_MAX

theorem InRange.store {res : Int} (h : p.InRange) (h0 : 0 ≤ res) (hmax : res ≤ INT_MAX) :
    (p.store sig res).InRange :=
  (Function.forall_update_iff p.res fun _ v => 0 ≤ v ∧ v ≤ INT_MAX).mpr ⟨⟨h0, hmax⟩, fun s _ => h s⟩

theorem InRange.loop (h : p.InRange) (sig : Signal) : ∃ p', loop sig p = some p' ∧ p'.InRange := by
  obtain ⟨h0, hmax⟩ := h sig
  have hnat : p.res sig = (p.res sig).toNat := by omega
  obtain ⟨p', hp'⟩ := whileLoop_isSome (p.res sig).toNat hnat (by omega)
  refine ⟨p', hp', ?_⟩
  unfold InRange
  rw [(drained_of_loop hp').res]
  exact h.store (le_refl 0) (by decide)

theorem InRange.foldlM (h : p.InRange) (sigs : List Signal) :
    ∃ p', sigs.foldlM (fun p sig => Process.loop sig p) p = some p' ∧ p'.InRange := by
  induction sigs generalizing p with
  | nil => exact ⟨p, rfl, h⟩
  | cons sig sigs ih =>
    obtain ⟨t, ht, hrange⟩ := h.loop sig
    rw [List.foldlM_cons, ht]
    exact ih hrange

theorem InRange.deliver (h : p.InRange) (hp : p.deliver sig = some p') : p'.InRange := by
  unfold Process.deliver at hp
  split at hp
  · obtain ⟨res, hres, rfl⟩ := Option.map_eq_some_iff.mp hp
    obtain ⟨rfl, hmax⟩ := intAdd?_cases hres
    exact InRange.store (p := p.activate sig) h (by have := (h sig).1; omega) hmax
  · cases hp
    exact h
  · split_ifs at hp
    cases hp
    exact h

end Process

/-! ### The steps of a call -/

namespace System

open Transition Process

variable {p p' : Process} {sig : Signal} {rest : List Signal}

/-- The main program runs undisturbed. -/
def Undisturbed (σ σ' : System) : Prop := ∃ k, run step σ (List.replicate k .main) = some σ'

theorem Undisturbed.trans {σ σ' σ'' : System} (h : Undisturbed σ σ') (h' : Undisturbed σ' σ'') :
    Undisturbed σ σ'' := by
  obtain ⟨k, hk⟩ := h
  obtain ⟨k', hk'⟩ := h'
  exact ⟨k + k', by rw [List.replicate_add]; exact run_append_eq_some.mpr ⟨σ', hk, hk'⟩⟩

theorem Undisturbed.single {σ σ' : System} (h : σ.mainStep = some σ') : Undisturbed σ σ' :=
  ⟨1, run_cons_eq_some.mpr ⟨σ', h, rfl⟩⟩

theorem undisturbed_reactions (todo : List (Signal × Disposition)) :
    Undisturbed ⟨p, .reporting todo sig rest⟩
      ⟨todo.foldl (fun p r => p.sigaction r.1 r.2) p, .reporting [] sig rest⟩ := by
  induction todo generalizing p with
  | nil => exact ⟨0, rfl⟩
  | cons r todo ih => exact (Undisturbed.single rfl).trans ih

theorem undisturbed_body (hres : p.res sig ≠ 0) (h : body sig p = some p') :
    Undisturbed ⟨p, .testing sig rest⟩ ⟨p', .testing sig rest⟩ := by
  have htest : Undisturbed ⟨p, .testing sig rest⟩ ⟨p, .reporting (reactions sig) sig rest⟩ :=
    .single (congrArg (fun pc => some (System.mk p pc)) (if_pos hres))
  have hreport : Undisturbed ⟨p.react sig, .reporting [] sig rest⟩
      ⟨(p.react sig).report sig, .loading sig rest⟩ := .single rfl
  have hload : Undisturbed ⟨(p.react sig).report sig, .loading sig rest⟩
      ⟨(p.react sig).report sig, .storing sig rest (p.res sig)⟩ := by
    refine .single ?_
    rw [react_eq]
    rfl
  obtain ⟨res, hadd, rfl⟩ := Option.map_eq_some_iff.mp h
  have hstore : Undisturbed ⟨(p.react sig).report sig, .storing sig rest (p.res sig)⟩
      ⟨((p.react sig).report sig).store sig res, .testing sig rest⟩ :=
    .single (by show (intAdd? (p.res sig) (-1)).map _ = _; rw [hadd]; rfl)
  exact ((htest.trans (undisturbed_reactions _)).trans hreport).trans (hload.trans hstore)

theorem undisturbed_loop (h : loop sig p = some p') :
    Undisturbed ⟨p, .testing sig rest⟩ ⟨p', .enter rest⟩ := by
  refine whileLoop_rec (R := fun p p' => Undisturbed ⟨p, .testing sig rest⟩ ⟨p', .enter rest⟩) ?_ ?_ h
  · intro s hs
    exact .single (congrArg (fun pc => some (System.mk s pc)) (if_neg (of_decide_eq_false hs)))
  · intro s t u hs hbody hrest
    exact (undisturbed_body (of_decide_eq_true hs) hbody).trans hrest

theorem undisturbed_foldlM (sigs : List Signal)
    (h : sigs.foldlM (fun p sig => loop sig p) p = some p') :
    Undisturbed ⟨p, .enter sigs⟩ ⟨p', .working⟩ := by
  induction sigs generalizing p with
  | nil => cases h; exact ⟨0, rfl⟩
  | cons sig sigs ih =>
    rw [List.foldlM_cons] at h
    obtain ⟨t, ht, hrest⟩ := Option.bind_eq_some_iff.mp h
    exact (undisturbed_loop ht).trans (ih hrest)

theorem undisturbed_printRecievedSignals (h : p.printRecievedSignals = some p') :
    Undisturbed ⟨p, .working⟩ ⟨p', .working⟩ :=
  (Undisturbed.single rfl).trans (undisturbed_foldlM order h)

end System
end OsExercises.Signals
