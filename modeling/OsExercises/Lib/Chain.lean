import Mathlib.Data.List.Basic
import Mathlib.Data.List.Nodup
import Mathlib.Data.List.Perm.Subperm
import Mathlib.Order.Basic
import OsExercises.Lib.Loop

/-!
# Linked chains

`Path next a l e`: following `next` from `a` visits the cells `l` in order and arrives at `e`.
A `Chain` is a path to the null cell. Paths compose and split along `++` (`path_append`), depend
only on the links of the visited cells (`Path.congr`) and are determined by their ends
(`Chain.unique`), so a list in memory can be handled as the list of its cells. `OnChain` is
membership without a list: a cell that is reached before the null cell. A cell is linked in at the
front (`Chain.push`) or behind a cell of the chain (`Chain.insert`). A loop that walks along the
links until a cell suits ends where such a path ends (`path_of_whileLoop`, `whileLoop_of_path`).
-/

namespace OsExercises

variable {α : Type*} {next next' : α → α} {null a b c e : α} {l l' : List α}

/-- Following `next` from `a` visits `l` and arrives at `e`. -/
def Path (next : α → α) : α → List α → α → Prop
  | a, [], e => a = e
  | a, b :: l, e => a = b ∧ Path next (next b) l e

/-- Following `next` from `a` visits the cells `l` and ends at `null`. -/
def Chain (next : α → α) (null a : α) (l : List α) : Prop := Path next a l null ∧ null ∉ l

/-- `b` is reached from `a` along `next` before `null` is. -/
inductive OnChain (next : α → α) (null : α) : α → α → Prop
  | here (a : α) (h : a ≠ null) : OnChain next null a a
  | there (a b : α) (h : a ≠ null) (t : OnChain next null (next a) b) : OnChain next null a b

@[simp] theorem path_nil : Path next a [] e ↔ a = e := Iff.rfl

@[simp] theorem path_cons : Path next a (b :: l) e ↔ a = b ∧ Path next (next b) l e := Iff.rfl

theorem path_append : Path next a (l ++ l') e ↔ ∃ c, Path next a l c ∧ Path next c l' e := by
  induction l generalizing a with
  | nil => simp
  | cons b l ih => simp [ih, and_assoc]

theorem path_append_cons :
    Path next a (l ++ b :: l') e ↔ Path next a l b ∧ Path next (next b) l' e := by
  simp [path_append]

theorem Path.next_last (h : Path next (next a) l e) : next (l.getLastD a) = e := by
  induction l generalizing a with
  | nil => exact h
  | cons b l ih =>
    obtain ⟨rfl, h⟩ := h
    rw [List.getLastD_cons]
    exact ih h

theorem Path.congr (h : Path next a l e) (hn : ∀ b ∈ l, next' b = next b) : Path next' a l e := by
  induction l generalizing a with
  | nil => exact h
  | cons b l ih =>
    obtain ⟨rfl, h⟩ := h
    refine ⟨rfl, ?_⟩
    rw [hn a List.mem_cons_self]
    exact ih h fun c hc => hn c (List.mem_cons_of_mem _ hc)

@[simp] theorem chain_nil : Chain next null a [] ↔ a = null := by simp [Chain]

theorem chain_cons : Chain next null a (b :: l) ↔ a = b ∧ b ≠ null ∧ Chain next null (next b) l := by
  simp only [Chain, path_cons, List.mem_cons, not_or]
  constructor
  · rintro ⟨⟨rfl, h⟩, h1, h2⟩; exact ⟨rfl, fun h' => h1 h'.symm, h, h2⟩
  · rintro ⟨rfl, h1, h, h2⟩; exact ⟨⟨rfl, h⟩, fun h' => h1 h'.symm, h2⟩

theorem Chain.congr (h : Chain next null a l) (hn : ∀ b ∈ l, next' b = next b) :
    Chain next' null a l := ⟨h.1.congr hn, h.2⟩

/-- `b` in front of the chain. -/
theorem Chain.push (h : Chain next null a l) (hb : next' b = a) (hne : b ≠ null)
    (hrest : ∀ c ∈ l, next' c = next c) : Chain next' null b (b :: l) := by
  refine chain_cons.2 ⟨rfl, hne, ?_⟩
  rw [hb]
  exact h.congr hrest

/-- `b` behind the cell `c` of the chain. -/
theorem Chain.insert (h : Chain next null a (l ++ c :: l')) (hc : next' c = b) (hb : next' b = next c)
    (hne : b ≠ null) (hrest : ∀ x ∈ l ++ l', next' x = next x) :
    Chain next' null a (l ++ c :: b :: l') := by
  obtain ⟨hl, hl'⟩ := path_append_cons.1 h.1
  refine ⟨path_append_cons.2 ⟨hl.congr fun x hx => hrest x (List.mem_append_left _ hx), ?_⟩, ?_⟩
  · rw [hc]
    refine ⟨rfl, ?_⟩
    rw [hb]
    exact hl'.congr fun x hx => hrest x (List.mem_append_right _ hx)
  · have hnull := h.2
    simp only [List.mem_append, List.mem_cons, not_or] at hnull ⊢
    exact ⟨hnull.1, hnull.2.1, hne.symm, hnull.2.2⟩

theorem Chain.ne_null (h : Chain next null a l) (hb : b ∈ l) : b ≠ null := by
  rintro rfl; exact h.2 hb

theorem Chain.head_eq (h : Chain next null a l) : a = l.headD null := by
  cases l with
  | nil => exact h.1
  | cons b l => exact h.1.1

theorem Chain.eq_nil_iff (h : Chain next null a l) : l = [] ↔ a = null := by
  cases l with
  | nil => simpa using h.1
  | cons b l =>
    obtain ⟨rfl, hne, -⟩ := chain_cons.1 h
    simp [hne]

theorem Chain.unique (h : Chain next null a l) (h' : Chain next null a l') : l = l' := by
  induction l generalizing a l' with
  | nil => exact (h'.eq_nil_iff.2 h.1).symm
  | cons b l ih =>
    obtain ⟨rfl, hne, h⟩ := chain_cons.1 h
    cases l' with
    | nil => exact absurd h'.1 hne
    | cons c l' =>
      obtain ⟨rfl, -, h'⟩ := chain_cons.1 h'
      rw [ih h h']

/-- A walk that ends does not come back to a cell. -/
theorem Chain.nodup (h : Chain next null a l) : l.Nodup := by
  induction l generalizing a with
  | nil => exact .nil
  | cons b l ih =>
    obtain ⟨rfl, -, h⟩ := chain_cons.1 h
    refine List.nodup_cons.2 ⟨fun hmem => ?_, ih h⟩
    obtain ⟨u, v, rfl⟩ := List.append_of_mem hmem
    have hnull : null ∉ v := fun hv => h.2 (by simp [hv])
    have heq := h.unique ⟨(path_append_cons.1 h.1).2, hnull⟩
    have hlen := congrArg List.length heq
    simp at hlen
    omega

theorem OnChain.advance (h : OnChain next null a b) (hb : next b ≠ null) :
    OnChain next null a (next b) := by
  induction h with
  | here a h => exact .there a _ h (.here _ hb)
  | there a b h _ ih => exact .there a _ h (ih hb)

/-- Cells that differ from `b` on the way to `c`: if `b` is on the chain, it is `c` or behind it. -/
theorem OnChain.of_path (h : OnChain next null a b) (hp : Path next a l c) (hb : b ∉ l) :
    OnChain next null c b := by
  induction l generalizing a with
  | nil =>
    obtain rfl : a = c := hp
    exact h
  | cons d l ih =>
    obtain ⟨rfl, hp⟩ := hp
    rw [List.mem_cons, not_or] at hb
    cases h with
    | here => exact absurd rfl hb.1
    | there _ _ _ h => exact ih h hp hb.2

theorem OnChain.append_path (h : OnChain next null c b) (hp : Path next a l c) (hl : null ∉ l) :
    OnChain next null a b := by
  induction l generalizing a with
  | nil =>
    obtain rfl : a = c := hp
    exact h
  | cons d l ih =>
    obtain ⟨rfl, hp⟩ := hp
    rw [List.mem_cons, not_or] at hl
    exact .there _ _ (Ne.symm hl.1) (ih hp hl.2)

theorem Chain.mem_iff (h : Chain next null a l) : b ∈ l ↔ OnChain next null a b := by
  induction l generalizing a with
  | nil =>
    have hnull : a = null := h.1
    constructor
    · intro hb; cases hb
    · intro hb
      cases hb with
      | here _ hne => exact absurd hnull hne
      | there _ _ hne => exact absurd hnull hne
  | cons c l ih =>
    obtain ⟨rfl, hne, h⟩ := chain_cons.1 h
    rw [List.mem_cons, ih h]
    constructor
    · rintro (rfl | hb)
      · exact .here _ hne
      · exact .there _ _ hne hb
    · intro hb
      cases hb with
      | here => exact Or.inl rfl
      | there _ _ _ hb => exact Or.inr hb

/-! ### Walking along the links -/

section Walk

variable [DecidableEq α] {p : α → Bool} {fuel : Nat}

theorem path_of_whileLoop
    (h : whileLoop (fun c => decide (c ≠ null) && !p c) (fun c => some (next c)) fuel a = some c) :
    ∃ l, Path next a l c ∧ (∀ b ∈ l, b ≠ null ∧ p b = false) ∧ (c = null ∨ p c = true) := by
  refine whileLoop_rec (R := fun a c => ∃ l, Path next a l c ∧ (∀ b ∈ l, b ≠ null ∧ p b = false) ∧
    (c = null ∨ p c = true)) (fun a ha => ⟨[], rfl, by simp, ?_⟩) (fun a b c ha hb hc => ?_) h
  · simpa [or_iff_not_imp_left] using ha
  · obtain ⟨l, hl, hno, hend⟩ := hc
    cases hb
    refine ⟨a :: l, ⟨rfl, hl⟩, ?_, hend⟩
    rw [List.forall_mem_cons]
    exact ⟨by simpa using ha, hno⟩

theorem whileLoop_of_path (h : Path next a l c) (hl : ∀ b ∈ l, b ≠ null ∧ p b = false)
    (hc : c = null ∨ p c = true) (hfuel : l.length < fuel) :
    whileLoop (fun c => decide (c ≠ null) && !p c) (fun c => some (next c)) fuel a = some c := by
  induction l generalizing a fuel with
  | nil =>
    obtain rfl : a = c := h
    refine whileLoop_exit hfuel ?_
    rcases hc with rfl | hc
    · simp
    · simp [hc]
  | cons b l ih =>
    obtain ⟨rfl, h⟩ := h
    obtain ⟨fuel, rfl⟩ := Nat.exists_eq_add_of_lt (Nat.zero_lt_of_lt hfuel)
    rw [List.forall_mem_cons] at hl
    rw [List.length_cons] at hfuel
    rw [Nat.zero_add]
    refine Eq.trans (whileLoop_step ?_ rfl) (ih h hl.2 (by omega))
    simp [hl.1]

end Walk

/-! ### Numbered cells -/

section Bounded

variable {next : Nat → Nat} {a c N : Nat} {l : List Nat}

theorem Path.lt (h : Path next a l c) (ha : a < N) (hN : ∀ b, next b < N) :
    (∀ b ∈ l, b < N) ∧ c < N := by
  induction l generalizing a with
  | nil =>
    obtain rfl : a = c := h
    exact ⟨by simp, ha⟩
  | cons b l ih =>
    obtain ⟨rfl, h⟩ := h
    have := ih h (hN a)
    exact ⟨List.forall_mem_cons.2 ⟨ha, this.1⟩, this.2⟩

/-- A walk that ends visits fewer than `N` cells. -/
theorem Chain.length_lt (h : Chain next c a l) (hl : ∀ b ∈ l, b ≠ 0) (ha : a < N)
    (hN : ∀ b, next b < N) : l.length < N := by
  have hnodup : (0 :: l).Nodup := List.nodup_cons.2 ⟨fun h0 => hl 0 h0 rfl, h.nodup⟩
  have hsub : 0 :: l ⊆ List.range N := by
    rintro b hb
    rw [List.mem_range]
    rcases List.mem_cons.1 hb with rfl | hb
    · exact Nat.zero_lt_of_lt ha
    · exact (h.1.lt ha hN).1 b hb
  have hle := (hnodup.subperm hsub).length_le
  rwa [List.length_cons, List.length_range] at hle

end Bounded

end OsExercises
