import Mathlib.Data.List.Infix
import Mathlib.Order.Basic

/-!
# Labelled transition systems as partial functions

`step s a` is the state after the step labelled `a` from `s`, `none` if that step is not enabled
there. A label carries every choice the step makes (which thread moves, which argument a caller
passes, what the environment answers), so a run is a list of labels. An invariant is carried along
runs by `run_inv`; `run_inv_of_meets` is the same rule for runs whose steps all satisfy a side
condition on the state before the step, and `throughout_iff_meets` and `meter_eq_iff_meets` say when
such a condition is exact.
-/

namespace OsExercises.Transition

variable {σ τ α : Type*} {step : σ → α → Option σ} {s s' s'' : σ} {a : α} {as bs : List α}

/-- The state after the steps labelled `as`, if each of them is enabled where it is taken. -/
def run (step : σ → α → Option σ) : σ → List α → Option σ
  | s, [] => some s
  | s, a :: as => (step s a).bind fun s' => run step s' as

theorem run_cons_eq_some :
    run step s (a :: as) = some s'' ↔ ∃ s', step s a = some s' ∧ run step s' as = some s'' := by
  simp [run, Option.bind_eq_some_iff]

theorem run_cons_of_eq (h : step s a = some s') : run step s (a :: as) = run step s' as := by
  simp [run, h]

theorem run_append : run step s (as ++ bs) = (run step s as).bind fun s' => run step s' bs := by
  induction as generalizing s with
  | nil => rfl
  | cons a as ih =>
    simp only [List.cons_append, run, Option.bind_assoc]
    congr 1; funext s'; exact ih

theorem run_append_eq_some :
    run step s (as ++ bs) = some s'' ↔ ∃ s', run step s as = some s' ∧ run step s' bs = some s'' := by
  rw [run_append, Option.bind_eq_some_iff]

/-- Some sequence of steps leads from `s` to `s'`. -/
def Reaches (step : σ → α → Option σ) (s s' : σ) : Prop := ∃ as, run step s as = some s'

theorem Reaches.refl : Reaches step s s := ⟨[], rfl⟩

theorem Reaches.head (hs : step s a = some s') (h : Reaches step s' s'') : Reaches step s s'' :=
  let ⟨as, hr⟩ := h
  ⟨a :: as, run_cons_eq_some.2 ⟨s', hs, hr⟩⟩

theorem Reaches.trans (h : Reaches step s s') (h' : Reaches step s' s'') : Reaches step s s'' :=
  let ⟨as, hr⟩ := h
  let ⟨bs, hr'⟩ := h'
  ⟨as ++ bs, run_append_eq_some.2 ⟨s', hr, hr'⟩⟩

/-! ### Side conditions and visited states -/

/-- Every step of the run of `as` from `s` is taken in a state and with a label that satisfy `C`. -/
def Meets (step : σ → α → Option σ) (C : σ → α → Prop) (s : σ) (as : List α) : Prop :=
  ∀ pre a, pre ++ [a] <+: as → ∀ s', run step s pre = some s' → C s' a

/-- `P` holds in every state the run of `as` from `s` passes through, both ends included. -/
def Throughout (step : σ → α → Option σ) (P : σ → Prop) (s : σ) (as : List α) : Prop :=
  ∀ pre, pre <+: as → ∀ s', run step s pre = some s' → P s'

variable {C : σ → α → Prop} {P I : σ → Prop}

theorem Meets.head (h : Meets step C s (a :: as)) : C s a :=
  h [] a ⟨as, rfl⟩ s rfl

theorem Meets.tail (h : Meets step C s (a :: as)) (hs : step s a = some s') : Meets step C s' as :=
  fun pre b hp s'' hr => h (a :: pre) b (List.cons_prefix_cons.2 ⟨rfl, hp⟩) s''
    (by rw [run_cons_of_eq hs]; exact hr)

theorem meets_nil : Meets step C s [] := by
  intro pre a hp
  simp [List.prefix_nil] at hp

theorem Meets.cons (hC : C s a) (h : ∀ s', step s a = some s' → Meets step C s' as) :
    Meets step C s (a :: as) := by
  intro pre b hp s'' hr
  cases pre with
  | nil =>
    obtain ⟨rfl, -⟩ := List.cons_prefix_cons.1 hp
    cases hr
    exact hC
  | cons c pre =>
    obtain ⟨rfl, hp'⟩ := List.cons_prefix_cons.1 hp
    obtain ⟨t, ht, hr'⟩ := run_cons_eq_some.1 hr
    exact h t ht pre b hp' s'' hr'

theorem meets_cons (h : step s a = some s') :
    Meets step C s (a :: as) ↔ C s a ∧ Meets step C s' as := by
  refine ⟨fun hm => ⟨hm.head, hm.tail h⟩, fun ⟨hC, hm⟩ => .cons hC fun t ht => ?_⟩
  obtain rfl : s' = t := Option.some.inj (h.symm.trans ht)
  exact hm

/-- A run on concrete data can be checked against a decidable condition. -/
instance decidableMeets [∀ s a, Decidable (C s a)] : ∀ s as, Decidable (Meets step C s as)
  | _, [] => isTrue meets_nil
  | s, a :: as =>
    match h : step s a with
    | none => decidable_of_iff (C s a) ⟨fun hC => .cons hC fun _ hs => (nomatch h.symm.trans hs), Meets.head⟩
    | some s' =>
      have := decidableMeets s' as
      decidable_of_iff (C s a ∧ Meets step C s' as) (meets_cons h).symm

theorem meets_append : Meets step C s (as ++ bs) ↔
    Meets step C s as ∧ ∀ s', run step s as = some s' → Meets step C s' bs := by
  constructor
  · refine fun h => ⟨fun pre a hp => h pre a (hp.trans (List.prefix_append as bs)), ?_⟩
    intro s' hr pre a hp s'' hr'
    refine h (as ++ pre) a ?_ s'' (run_append_eq_some.2 ⟨s', hr, hr'⟩)
    rw [List.append_assoc]
    exact (List.prefix_append_right_inj as).2 hp
  · rintro ⟨h₁, h₂⟩
    induction as generalizing s with
    | nil => exact h₂ s rfl
    | cons a as ih =>
      intro pre b hp s'' hr
      cases pre with
      | nil =>
        obtain ⟨rfl, -⟩ := List.cons_prefix_cons.1 hp
        cases hr
        exact h₁.head
      | cons c pre =>
        obtain ⟨rfl, hp'⟩ := List.cons_prefix_cons.1 hp
        obtain ⟨t, ht, hr'⟩ := run_cons_eq_some.1 hr
        exact ih (h₁.tail ht) (fun s' hs' => h₂ s' (by rw [run_cons_of_eq ht]; exact hs'))
          pre b hp' s'' hr'

theorem Meets.take (h : Meets step C s as) (hp : bs <+: as) : Meets step C s bs :=
  fun pre a hpre s' hr => h pre a (hpre.trans hp) s' hr

theorem throughout_cons (h : step s a = some s') :
    Throughout step P s (a :: as) ↔ P s ∧ Throughout step P s' as := by
  constructor
  · intro ht
    refine ⟨ht [] (List.nil_prefix) s rfl, fun pre hp s'' hr => ?_⟩
    exact ht (a :: pre) (List.cons_prefix_cons.2 ⟨rfl, hp⟩) s'' (by rw [run_cons_of_eq h]; exact hr)
  · rintro ⟨hs, ht⟩ pre hp s'' hr
    cases pre with
    | nil => cases hr; exact hs
    | cons b pre =>
      obtain ⟨rfl, hp'⟩ := List.cons_prefix_cons.1 hp
      exact ht pre hp' s'' (by rw [← run_cons_of_eq h]; exact hr)

/-! ### Invariants along runs -/

theorem run_inv_of_meets (hstep : ∀ s a s', I s → C s a → step s a = some s' → I s')
    (hs : I s) (hC : Meets step C s as) (h : run step s as = some s') : I s' := by
  induction as generalizing s with
  | nil => cases h; exact hs
  | cons a as ih =>
    obtain ⟨t, ht, hr⟩ := run_cons_eq_some.1 h
    exact ih (hstep s a t hs hC.head ht) (hC.tail ht) hr

theorem run_inv (hstep : ∀ s a s', I s → step s a = some s' → I s') (hs : I s)
    (h : run step s as = some s') : I s' := by
  induction as generalizing s with
  | nil => cases h; exact hs
  | cons a as ih =>
    obtain ⟨t, ht, hr⟩ := run_cons_eq_some.1 h
    exact ih (hstep s a t hs ht) hr

theorem throughout_of_meets (hstep : ∀ s a s', I s → C s a → step s a = some s' → I s')
    (hP : ∀ s, I s → P s) (hs : I s) (hC : Meets step C s as) : Throughout step P s as :=
  fun _ hp s' hr => hP s' (run_inv_of_meets hstep hs (hC.take hp) hr)

/-- The side condition is exact: if a step that misses it always leads to a state violating `P`,
then a run stays within `P` if and only if all its steps meet the condition. -/
theorem throughout_iff_meets (hstep : ∀ s a s', I s → C s a → step s a = some s' → I s')
    (hP : ∀ s, I s → P s)
    (hexact : ∀ s a s', I s → ¬ C s a → step s a = some s' → ¬ P s')
    (hs : I s) (h : run step s as = some s') :
    Throughout step P s as ↔ Meets step C s as := by
  refine ⟨fun ht => ?_, throughout_of_meets hstep hP hs⟩
  induction as generalizing s with
  | nil => exact meets_nil
  | cons a as ih =>
    obtain ⟨t, hst, hr⟩ := run_cons_eq_some.1 h
    have hCa : C s a := by
      by_contra hC
      exact hexact s a t hs hC hst (((throughout_cons hst).1 ht).2 [] List.nil_prefix t rfl)
    refine (meets_cons hst).2 ⟨hCa, ih (hstep s a t hs hCa hst) hr ?_⟩
    exact ((throughout_cons hst).1 ht).2

/-! ### Runs that end -/

/-- No step is enabled. -/
def Final (step : σ → α → Option σ) (s : σ) : Prop := ∀ a, step s a = none

section Termination

variable {weight : σ → Nat}

/-- Each step costs weight, so a run is not longer than the weight of its first state. -/
theorem run_length_le (hstep : ∀ s a s', I s → step s a = some s' → I s')
    (hweight : ∀ s a s', I s → step s a = some s' → weight s' < weight s) (hs : I s)
    (h : run step s as = some s') : as.length + weight s' ≤ weight s := by
  induction as generalizing s with
  | nil => cases h; exact (Nat.zero_add _).le
  | cons a as ih =>
    obtain ⟨t, ht, hr⟩ := run_cons_eq_some.1 h
    have hrest := ih (hstep s a t hs ht) hr
    have hlt := hweight s a t hs ht
    rw [List.length_cons]
    omega

theorem exists_final (hstep : ∀ s a s', I s → step s a = some s' → I s')
    (hweight : ∀ s a s', I s → step s a = some s' → weight s' < weight s) (hs : I s) :
    ∃ s', Reaches step s s' ∧ Final step s' := by
  induction hw : weight s using Nat.strong_induction_on generalizing s with
  | _ w ih =>
    by_cases hfinal : Final step s
    · exact ⟨s, .refl, hfinal⟩
    · obtain ⟨a, ha⟩ := not_forall.1 hfinal
      obtain ⟨t, ht⟩ := Option.ne_none_iff_exists'.1 ha
      obtain ⟨s', hreach, hend⟩ := ih _ (hw ▸ hweight s a t hs ht) (hstep s a t hs ht) rfl
      exact ⟨s', .head ht hreach, hend⟩

end Termination

/-! ### Meters -/

section Meter

variable {ι : Type*} [PartialOrder ι] {f : σ → ι}

theorem run_meter_le (hstep : ∀ s a s', I s → step s a = some s' → I s')
    (hmono : ∀ s a s', I s → step s a = some s' → f s ≤ f s') (hs : I s)
    (h : run step s as = some s') : f s ≤ f s' := by
  induction as generalizing s with
  | nil => cases h; exact le_refl _
  | cons a as ih =>
    obtain ⟨t, ht, hr⟩ := run_cons_eq_some.1 h
    exact (hmono s a t hs ht).trans (ih (hstep s a t hs ht) hr)

/-- A quantity that the steps meeting the condition keep and the others raise shows at the end
whether all of them met it. -/
theorem meter_eq_iff_meets (hstep : ∀ s a s', I s → step s a = some s' → I s')
    (hkeep : ∀ s a s', I s → C s a → step s a = some s' → f s' = f s)
    (hraise : ∀ s a s', I s → ¬ C s a → step s a = some s' → f s < f s')
    (hs : I s) (h : run step s as = some s') : f s' = f s ↔ Meets step C s as := by
  have hmono : ∀ s a s', I s → step s a = some s' → f s ≤ f s' := by
    intro s a s' hs hst
    by_cases hC : C s a
    · exact (hkeep s a s' hs hC hst).ge
    · exact (hraise s a s' hs hC hst).le
  induction as generalizing s with
  | nil =>
    cases h
    exact iff_of_true rfl meets_nil
  | cons a as ih =>
    obtain ⟨t, ht, hr⟩ := run_cons_eq_some.1 h
    have hinv := hstep s a t hs ht
    have hrest := ih hinv hr
    rw [meets_cons ht]
    by_cases hC : C s a
    · have hkept := hkeep s a t hs hC ht
      exact ⟨fun heq => ⟨hC, hrest.mp (heq.trans hkept.symm)⟩, fun hm => (hrest.mpr hm.2).trans hkept⟩
    · have hlt := (hraise s a t hs hC ht).trans_le (run_meter_le hstep hmono hinv hr)
      exact iff_of_false hlt.ne' fun hm => hC hm.1

end Meter

end OsExercises.Transition
