import OsExercises.BestFit.Runs
import OsExercises.Lib.FirstFit
import OsExercises.Lib.Simulation

/-!
# The best-fit allocator refines first fit

In a run without inner splits the headers in memory are a list of blocks on which `my_malloc` and
`my_free` compute what `Tiling.firstFit` says: the client is answered the same, pointer for pointer
(`refinesFirstFit`). Whether a request splits an inner block can be read off the list
(`innerSplit_iff`), so two heaps with the same list cannot be told apart (`run_rel_of_inv`).
-/

namespace OsExercises.BestFit
open Client Tiling Transition

variable {s t s' : State} {v : View} {l l' P Q : List Block} {b : Block} {n p : Nat}

/-! ### The list of a heap -/

theorem Forward.unique (h : Forward s l) (h' : Forward s l') : l = l' := by
  have haddr := h.chain.unique h'.chain
  have hread : ∀ {l}, Forward s l →
      l.map (fun b => (⟨b.addr, size s.mem b.addr, isFree s.mem b.addr⟩ : Block)) = l := by
    intro l h
    conv => rhs; rw [← List.map_id l]
    refine List.map_congr_left fun b hb => ?_
    rw [(h.stored b hb).size, (h.stored b hb).free]
    rfl
  have hmap := congrArg (List.map fun a => (⟨a, size s.mem a, isFree s.mem a⟩ : Block)) haddr
  rw [List.map_map, List.map_map] at hmap
  exact (hread h).symm.trans (hmap.trans (hread h'))

/-- `InnerSplit` for the blocks themselves. -/
def innerSplit (n : Nat) (l : List Block) : Bool :=
  match l.span fun b => !fits (n + sizeofHeader) b with
  | (_, b :: _ :: _) => decide (n ≠ 0 ∧ n + sizeofHeader + sizeofHeader ≤ b.size)
  | _ => false

theorem Forward.innerSplit_of_append (h : Forward s (P ++ b :: Q)) (hn : n ≠ 0) (hQ : Q ≠ [])
    (hP : ∀ c ∈ P, fits (n + 32) c = false) (hb : fits (n + 32) b = true)
    (hge : n + 32 + 32 ≤ b.size) : InnerSplit s n := by
  have hchain := h.chain
  rw [List.map_append, List.map_cons] at hchain
  have hst := h.stored b (by simp)
  refine ⟨hn, P.map Block.addr, b.addr, Q.map Block.addr, hchain, by simpa using hQ, ?_, ?_, ?_⟩
  · intro a ha hfree
    obtain ⟨c, hc, rfl⟩ := List.mem_map.mp ha
    have hstc := h.stored c (by simp [hc])
    rw [hstc.free] at hfree
    rw [hstc.size, Forward.sizeofHeader_eq]
    by_contra hle
    have := hP c hc
    rw [fits_iff.mpr ⟨hfree, by omega⟩] at this
    cases this
  · rw [hst.free]
    exact (fits_iff.mp hb).1
  · rw [hst.size, Forward.sizeofHeader_eq]
    exact hge

theorem Forward.innerSplit_iff (h : Forward s l) : InnerSplit s n ↔ innerSplit n l = true := by
  constructor
  · intro hsplit
    obtain ⟨hn, P, b, c, Q, rfl, hP, hb, hge⟩ := h.exists_of_innerSplit hsplit
    have hspan : ((P ++ b :: c :: Q).span fun b => !fits (n + 32) b) = (P, b :: c :: Q) :=
      span_append_cons (fun d hd => by simp [hP d hd]) (by simp [hb])
    simp only [innerSplit, Forward.sizeofHeader_eq, hspan]
    exact decide_eq_true ⟨hn, hge⟩
  · intro hsplit
    rcases first_fit (n + 32) l with hno | ⟨P, b, Q, rfl, hP, hb⟩
    · have hspan : (l.span fun b => !fits (n + 32) b) = (l, []) :=
        span_of_all fun c hc => by simp [hno c hc]
      simp only [innerSplit, Forward.sizeofHeader_eq, hspan, Bool.false_eq_true] at hsplit
    · have hspan : ((P ++ b :: Q).span fun b => !fits (n + 32) b) = (P, b :: Q) :=
        span_append_cons (fun c hc => by simp [hP c hc]) (by simp [hb])
      simp only [innerSplit, Forward.sizeofHeader_eq, hspan] at hsplit
      rcases Q with _ | ⟨c, Q⟩
      · cases hsplit
      · obtain ⟨hn, hge⟩ := of_decide_eq_true hsplit
        exact h.innerSplit_of_append hn (by simp) hP hb hge

/-- The client knows the same, the blocks of the one heap lie in the memory of the other, and no two that
are neighbours are free. -/
structure SameBlocks (σ : Session State) (τ : Session (List Block)) : Prop where
  view : σ.view = τ.view
  linked : Linked σ.heap τ.heap
  coalesced : Coalesced τ.heap

/-! ### One operation -/

/-- `SameBlocks` with all that has to be carried along. -/
def Refines (σ : Session State) (τ : Session (List Block)) : Prop :=
  σ.view = τ.view ∧ Inv σ.heap σ.view τ.heap

theorem Inv.malloc_firstFit (h : Inv s v l) (hn : n + 32 < 2 ^ 64) (hC : ¬ InnerSplit s n) :
    ∃ s' l' p, myMalloc n s = some (s', p) ∧ (firstFit sizeofHeader).malloc n l = some (l', p) ∧
      Inv s' (v.record n p) l' := by
  rcases h.forward.malloc hn with ⟨hno, hnull⟩ | ⟨hzero, P, b, Q, rfl, hP, hb, hfound⟩
  · obtain ⟨l', hinv, -⟩ := h.malloc hn hC hnull
    obtain rfl := hinv.forward.unique h.forward
    exact ⟨s, l', 0, hnull, firstFit.malloc_refused hno, hinv⟩
  · obtain ⟨l', hinv, -⟩ := h.malloc hn hC hfound
    obtain rfl := hinv.forward.unique (h.forward.take (k := n + 32) (by omega)
      (by have := h.forward.size_le (b := b) (by simp); have := (fits_iff.mp hb).2
          have := h.small; omega))
    exact ⟨_, _, _, hfound, firstFit.malloc_found hzero hP hb, hinv⟩

theorem Inv.free_firstFit (h : Inv s v l) (hp : p ∈ v.pointers) :
    ∃ s' l', myFree p s = some s' ∧ (firstFit sizeofHeader).free p l = some l' ∧
      Inv s' (v.release p) l' := by
  obtain ⟨s', l', hs', hinv, -⟩ := h.free hp
  obtain ⟨P, b, Q, rfl, hfree, rfl, hptr⟩ := h.exists_block hp
  obtain ⟨m, hm, hlinked⟩ := h.linked.free hfree h.small
  rw [hptr, hs'] at hm
  cases hm
  obtain rfl := hinv.forward.unique hlinked.toForward
  refine ⟨_, _, hs', firstFit.free_append_cons fun c hc hcb => ?_, hinv⟩
  exact h.forward.ne_of_mem (.inl hc) (h.eq_of_addr (by simp [hc]) (by simp) hcb)

theorem step_rel {σ : Session State} {τ : Session (List Block)} {op : Op} (h : Refines σ τ)
    (hC : NoInnerSplit σ op) : Option.Rel Refines (Client.step allocator permits σ op)
      (Client.step (firstFit sizeofHeader) permits τ op) := by
  obtain ⟨s, v⟩ := σ
  obtain ⟨l, w⟩ := τ
  obtain ⟨rfl, hinv⟩ : v = w ∧ Inv s v l := h
  by_cases hp : permits v op = true
  · rw [Client.step, Client.step, if_pos hp, if_pos hp]
    cases op with
    | malloc n =>
      obtain ⟨s', l', p, hs', hl', hinv'⟩ := hinv.malloc_firstFit (of_decide_eq_true hp) hC
      have hs' : allocator.malloc n s = some (s', p) := hs'
      rw [exec, exec, hs', hl']
      exact .some ⟨rfl, hinv'⟩
    | free p =>
      obtain ⟨s', l', hs', hl', hinv'⟩ := hinv.free_firstFit (of_decide_eq_true hp)
      have hs' : allocator.free p s = some s' := hs'
      rw [exec, exec, hs', hl']
      exact .some ⟨rfl, hinv'⟩
    | write p off x => exact .some ⟨rfl, hinv.write hp⟩
  · rw [Client.step, Client.step, if_neg hp, if_neg hp]
    exact .none

/-! ### Runs -/

/-- `NoInnerSplit` for the blocks themselves. -/
def KeepsLinks (τ : Session (List Block)) : Op → Prop
  | .malloc n => innerSplit n τ.heap = false
  | _ => True

instance (τ : Session (List Block)) : (op : Op) → Decidable (KeepsLinks τ op)
  | .malloc n => inferInstanceAs (Decidable (innerSplit n τ.heap = false))
  | .free _ => inferInstanceAs (Decidable True)
  | .write _ _ _ => inferInstanceAs (Decidable True)

theorem Refines.noInnerSplit_iff {σ : Session State} {τ : Session (List Block)} {op : Op}
    (h : Refines σ τ) : NoInnerSplit σ op ↔ KeepsLinks τ op := by
  cases op with
  | malloc n => rw [NoInnerSplit, KeepsLinks, h.2.forward.innerSplit_iff, Bool.not_eq_true]
  | free p => exact Iff.rfl
  | write p off x => exact Iff.rfl

theorem Refines.meets {σ : Session State} {τ : Session (List Block)} {ops : List Op}
    (h : Refines σ τ) (hC : Meets (Client.step (firstFit sizeofHeader) permits) KeepsLinks τ ops) :
    Meets (Client.step allocator permits) NoInnerSplit σ ops := by
  induction ops generalizing σ τ with
  | nil => exact meets_nil
  | cons op ops ih =>
    have hop := h.noInnerSplit_iff.mpr hC.head
    refine .cons hop fun σ' hσ' => ?_
    have hrel := step_rel h hop
    rw [hσ'] at hrel
    generalize hτ : Client.step (firstFit sizeofHeader) permits τ op = x at hrel
    cases hrel with
    | some h' => exact ih h' (hC.tail hτ)

/-- Two heaps with the same list. -/
def Twins (σ τ : Session State) : Prop := ∃ ρ, Refines σ ρ ∧ Refines τ ρ

theorem Twins.step {σ τ : Session State} {op : Op} (h : Twins σ τ) (hC : NoInnerSplit σ op) :
    Option.Rel Twins (Client.step allocator permits σ op) (Client.step allocator permits τ op) := by
  obtain ⟨ρ, hσ, hτ⟩ := h
  have hCτ : NoInnerSplit τ op := hτ.noInnerSplit_iff.mpr (hσ.noInnerSplit_iff.mp hC)
  have hrelσ := step_rel hσ hC
  have hrelτ := step_rel hτ hCτ
  generalize Client.step allocator permits σ op = x at hrelσ ⊢
  generalize Client.step allocator permits τ op = y at hrelτ ⊢
  generalize Client.step (firstFit sizeofHeader) permits ρ op = z at hrelσ hrelτ
  cases hrelσ with
  | none => cases hrelτ; exact .none
  | some hσ' =>
    cases hrelτ with
    | some hτ' => exact .some ⟨_, hσ', hτ'⟩

/-- Heaps with the same list answer a client alike. -/
theorem run_rel_of_inv (hs : Inv s v l) (ht : Inv t v l) {ops : List Op}
    (hC : Meets (Client.step allocator permits) NoInnerSplit ⟨s, v⟩ ops) :
    (run (Client.step allocator permits) ⟨t, v⟩ ops).map Session.view =
      (run (Client.step allocator permits) ⟨s, v⟩ ops).map Session.view := by
  have htwins : Twins ⟨s, v⟩ ⟨t, v⟩ := ⟨⟨l, v⟩, ⟨rfl, hs⟩, rfl, ht⟩
  have hsame := run_rel_of_meets (fun _ _ _ => Twins.step) htwins hC
  generalize run (Client.step allocator permits) ⟨s, v⟩ ops = x at hsame ⊢
  generalize run (Client.step allocator permits) ⟨t, v⟩ ops = y at hsame ⊢
  cases hsame with
  | none => rfl
  | some h =>
    obtain ⟨ρ, hσ, hτ⟩ := h
    exact congrArg some (hτ.1.trans hσ.1.symm)

theorem Refines.init {mem : Mem} {total_size base : Nat} {s₀ : State} (hlt : total_size < 2 ^ 31)
    (hm : Mapped base total_size)
    (hinit : myAllocatorInit total_size (some base) (State.initial mem) = some s₀) :
    Refines ⟨s₀, View.empty⟩ ⟨[⟨base, total_size, true⟩], View.empty⟩ := by
  obtain ⟨s, hs, -, hsize, hlinked⟩ := init_spec (s := State.initial mem) rfl rfl hm
  obtain rfl : s = s₀ := Option.some.inj (hs.symm.trans hinit)
  exact ⟨rfl, Inv.start hlinked (by rw [hsize]; exact hlt) rfl⟩

/-- The first of two blocks is released. -/
def leaveHole : List Op := [.malloc 128, .malloc 32, .free 65568]

theorem meets_leaveHole {s₀ : State}
    (hinit : myAllocatorInit 512 (some 65536) (State.initial fun _ => 0) = some s₀) :
    Meets (step allocator permits) NoInnerSplit ⟨s₀, View.empty⟩ leaveHole :=
  (Refines.init (by decide) mapped_512 hinit).meets (by decide)

/-- Both neighbours of the second block are free. -/
theorem inv_leaveHole : ∃ s₀ σ, myAllocatorInit 512 (some 65536) (State.initial fun _ => 0) = some s₀ ∧
    run (step allocator permits) ⟨s₀, View.empty⟩ leaveHole = some σ ∧
    Inv σ.heap σ.view ([⟨65536, 160, true⟩] ++ ⟨65696, 64, false⟩ :: [⟨65760, 288, true⟩]) := by
  obtain ⟨s₀, hinit, -⟩ := init_spec (s := State.initial fun _ => 0) rfl rfl mapped_512
  have hrel := run_rel_of_meets (fun σ τ op => step_rel) (Refines.init (by decide) mapped_512 hinit)
    (meets_leaveHole hinit)
  generalize hr : run (step allocator permits) ⟨s₀, View.empty⟩ leaveHole = x at hrel
  cases hrel with
  | @some σ τ h => exact ⟨s₀, σ, hinit, hr, h.2⟩

theorem refinesFirstFit (mem : Mem) (total_size base : Nat) (s₀ : State) (ops : List Op)
    (hlt : total_size < 2 ^ 31) (hm : Mapped base total_size)
    (hinit : myAllocatorInit total_size (some base) (State.initial mem) = some s₀)
    (hC : Meets (step allocator permits) NoInnerSplit ⟨s₀, View.empty⟩ ops) :
    Option.Rel SameBlocks
      (run (step allocator permits) ⟨s₀, View.empty⟩ ops)
      (run (step (firstFit sizeofHeader) permits) ⟨[⟨base, total_size, true⟩], View.empty⟩ ops) := by
  have hrel := run_rel_of_meets (fun σ τ op => step_rel) (Refines.init hlt hm hinit) hC
  generalize run (step allocator permits) ⟨s₀, View.empty⟩ ops = x at hrel ⊢
  generalize run (step (firstFit sizeofHeader) permits) _ ops = y at hrel ⊢
  cases hrel with
  | none => exact .none
  | some h => exact .some ⟨h.1, h.2.linked, h.2.coalesced⟩

/-- The hole left by the first of two blocks is taken whole. -/
def reuseHole : List Op := [.malloc 128, .malloc 32, .free 65568, .malloc 100]

theorem refinesFirstFit_reuseHole : ∃ s₀,
    myAllocatorInit 512 (some 65536) (State.initial fun _ => 0) = some s₀ ∧
    Option.Rel SameBlocks
      (run (step allocator permits) ⟨s₀, View.empty⟩ reuseHole)
      (some ⟨[⟨65536, 160, false⟩, ⟨65696, 64, false⟩, ⟨65760, 288, true⟩],
        ⟨[(65568, 100), (65728, 32)], [65568, 65728, 65568], [65568, 65728, 65568]⟩⟩) := by
  obtain ⟨s₀, hinit, -⟩ := init_spec (s := State.initial fun _ => 0) rfl rfl mapped_512
  have hC : Meets (step allocator permits) NoInnerSplit ⟨s₀, View.empty⟩ reuseHole :=
    (Refines.init (by decide) mapped_512 hinit).meets (by decide)
  have hrel := refinesFirstFit _ 512 65536 s₀ reuseHole (by decide) mapped_512 hinit hC
  exact ⟨s₀, hinit, hrel⟩

end OsExercises.BestFit
