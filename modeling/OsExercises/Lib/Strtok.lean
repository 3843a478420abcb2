import Mathlib.Data.List.TakeWhile
import OsExercises.Lib.CString

/-!
# Tokens of a string

`strtok?` is a call of `strtok_r` with one delimiter, on the memory from the saved pointer on, and
`tokenLoop` the usual loop over all tokens. On a string the loop is a fold over its `words`, and leaves
the string with its tokens terminated (`tokenLoop_eq`). A text has one more word than delimiters only if
it is `WellSpaced`.
-/

namespace OsExercises

structure Token where
  text : Bytes
  /-- The memory up to the new saved pointer. -/
  passed : Bytes
  behind : Bytes

/-- `some none` is `NULL`; none if the memory ends before the string does. -/
def strtok? (delim : UInt8) (mem : Bytes) : Option (Option Token) :=
  let blanks := mem.takeWhile (· = delim)
  let found := mem.dropWhile (· = delim)
  let text := found.takeWhile fun b => b ≠ delim ∧ b ≠ NUL
  match found.dropWhile fun b => b ≠ delim ∧ b ≠ NUL with
  | [] => none
  | b :: rest =>
    if text = [] then some none
    else if b = NUL then some (some ⟨text, blanks ++ text, NUL :: rest⟩)
    else some (some ⟨text, blanks ++ text ++ [NUL], rest⟩)

/-- `while (token) { body; token = strtok_r(NULL, ..); }` with at most `fuel` calls; `undefined` is
raised when the memory ends before the string. -/
def tokenLoop {σ ε : Type*} (undefined : ε) (delim : UInt8) (body : σ → Bytes → Except ε σ) :
    Nat → σ → Bytes → Except ε (σ × Bytes)
  | 0, _, _ => .error undefined
  | fuel + 1, s, mem =>
    match strtok? delim mem with
    | none => .error undefined
    | some none => .ok (s, mem)
    | some (some t) => do
      let s' ← body s t.text
      let r ← tokenLoop undefined delim body fuel s' t.behind
      return (r.1, t.passed ++ r.2)

/-- The parts between the delimiters that are not empty. -/
def words (delim : UInt8) (s : Bytes) : List Bytes := (s.splitOn delim).filter (· ≠ [])

/-- A delimiter right behind a token becomes its terminator. -/
def terminated (delim : UInt8) : Bool → Bytes → Bytes
  | _, [] => []
  | inToken, b :: s =>
    if b = delim then (if inToken then NUL else b) :: terminated delim false s
    else b :: terminated delim true s

/-- No delimiter stands at an end of the text or beside another one. -/
structure WellSpaced (delim : UInt8) (s : Bytes) : Prop where
  ne_nil : s ≠ []
  head : s.head? ≠ some delim
  last : s.getLast? ≠ some delim
  apart : s.IsChain fun a b => a ≠ delim ∨ b ≠ delim

variable {delim : UInt8} {s text blanks rest : Bytes}

/-! ### Words -/

theorem words_append (a b : Bytes) : words delim (a ++ delim :: b) = words delim a ++ words delim b := by
  rw [words, List.splitOn_append_cons_self, List.filter_append]
  rfl

theorem words_of_notMem (h : delim ∉ s) : words delim s = if s = [] then [] else [s] := by
  rw [words, List.splitOn_eq_singleton h, List.filter_singleton]
  by_cases hs : s = [] <;> simp [hs]

theorem words_blanks_append (h : ∀ b ∈ blanks, b = delim) : words delim (blanks ++ s) = words delim s := by
  induction blanks with
  | nil => rfl
  | cons b blanks ih =>
    obtain ⟨rfl, h⟩ := List.forall_mem_cons.mp h
    have hcons : words b (b :: (blanks ++ s)) = words b [] ++ words b (blanks ++ s) :=
      words_append [] (blanks ++ s)
    rw [List.cons_append, hcons, ih h]
    rfl

/-- A string is blank, or begins with a token that ends with it or at a delimiter. -/
theorem token_cases (delim : UInt8) (s : Bytes) : (∀ b ∈ s, b = delim) ∨
    ∃ blanks text, (∀ b ∈ blanks, b = delim) ∧ text ≠ [] ∧ delim ∉ text ∧
      (s = blanks ++ text ∨ ∃ rest, s = blanks ++ (text ++ delim :: rest)) := by
  induction s with
  | nil => exact Or.inl (List.forall_mem_nil _)
  | cons b s ih =>
    by_cases hb : b = delim
    · subst hb
      rcases ih with hblank | ⟨blanks, text, hblanks, htext, hnot, hs⟩
      · exact Or.inl (List.forall_mem_cons.mpr ⟨rfl, hblank⟩)
      · refine Or.inr ⟨b :: blanks, text, List.forall_mem_cons.mpr ⟨rfl, hblanks⟩, htext, hnot, ?_⟩
        rcases hs with rfl | ⟨rest, rfl⟩
        · exact Or.inl rfl
        · exact Or.inr ⟨rest, rfl⟩
    · right
      by_cases hmem : delim ∈ s
      · obtain ⟨text, rest, rfl, hnot⟩ := List.eq_append_cons_of_mem hmem
        refine ⟨[], b :: text, List.forall_mem_nil _, List.cons_ne_nil _ _, ?_, Or.inr ⟨rest, rfl⟩⟩
        exact List.not_mem_cons_of_ne_of_not_mem (Ne.symm hb) hnot
      · refine ⟨[], b :: s, List.forall_mem_nil _, List.cons_ne_nil _ _, ?_, Or.inl rfl⟩
        exact List.not_mem_cons_of_ne_of_not_mem (Ne.symm hb) hmem

theorem words_last (hblanks : ∀ b ∈ blanks, b = delim) (htext : text ≠ []) (hnot : delim ∉ text) :
    words delim (blanks ++ text) = [text] := by
  rw [words_blanks_append hblanks, words_of_notMem hnot, if_neg htext]

theorem words_token (hblanks : ∀ b ∈ blanks, b = delim) (htext : text ≠ []) (hnot : delim ∉ text) :
    words delim (blanks ++ (text ++ delim :: rest)) = text :: words delim rest := by
  rw [words_blanks_append hblanks, words_append, words_of_notMem hnot, if_neg htext]
  rfl

theorem words_blank (h : ∀ b ∈ s, b = delim) : words delim s = [] := by
  have hblanks := words_blanks_append (s := []) h
  rw [List.append_nil] at hblanks
  rw [hblanks]
  rfl

theorem words_eq_nil_iff : words delim s = [] ↔ ∀ b ∈ s, b = delim := by
  refine ⟨fun hwords => ?_, words_blank⟩
  rcases token_cases delim s with hblank | ⟨blanks, text, hblanks, htext, hnot, rfl | ⟨rest, rfl⟩⟩
  · exact hblank
  · rw [words_last hblanks htext hnot] at hwords
    cases hwords
  · rw [words_token hblanks htext hnot] at hwords
    cases hwords

theorem words_delim_cons : words delim (delim :: s) = words delim s := by
  have hblank : ∀ b ∈ [delim], b = delim := List.forall_mem_singleton.mpr rfl
  exact words_blanks_append hblank

/-- What is put behind a text goes on with its last word up to the first delimiter. -/
theorem words_text_append (htext : text ≠ []) (hnot : delim ∉ text) : words delim (text ++ s) =
    (text ++ s.takeWhile (· ≠ delim)) :: words delim (s.dropWhile (· ≠ delim)) := by
  have hword : delim ∉ text ++ s.takeWhile (· ≠ delim) := by
    rw [List.mem_append, not_or]
    exact ⟨hnot, fun hmem => by simpa using List.mem_takeWhile_imp hmem⟩
  have hne : text ++ s.takeWhile (· ≠ delim) ≠ [] := List.append_ne_nil_of_left_ne_nil htext _
  have hsplit : text ++ s = text ++ s.takeWhile (· ≠ delim) ++ s.dropWhile (· ≠ delim) := by
    rw [List.append_assoc, List.takeWhile_append_dropWhile]
  rw [hsplit]
  cases hs : s.dropWhile (· ≠ delim) with
  | nil =>
    rw [List.append_nil, words_of_notMem hword, if_neg hne]
    rfl
  | cons b rest =>
    obtain rfl : b = delim := by
      have hhead := List.head?_dropWhile_not (fun b => decide (b ≠ delim)) s
      rw [hs] at hhead
      exact of_decide_eq_true (by simpa using hhead)
    rw [words_append, words_of_notMem hword, if_neg hne, words_delim_cons]
    rfl

/-! ### How many words -/

theorem length_splitOn : (s.splitOn delim).length = s.count delim + 1 := by
  induction s with
  | nil => rfl
  | cons b s ih =>
    rw [List.splitOn_cons_eq_if_modifyHead, List.count_cons]
    split_ifs with hb
    · rw [List.length_cons, ih]
    · rw [List.length_modifyHead, ih, Nat.add_zero]

theorem length_words_eq_iff :
    (words delim s).length = s.count delim + 1 ↔ ∀ p ∈ s.splitOn delim, p ≠ [] := by
  rw [← length_splitOn, words, List.length_filter_eq_length_iff]
  simp

/-- The first part is empty only where the text does not begin with a word. -/
theorem forall_mem_splitOn : (∀ p ∈ s.splitOn delim, p ≠ []) ↔
    (s ≠ [] ∧ s.head? ≠ some delim) ∧ ∀ p ∈ (s.splitOn delim).tail, p ≠ [] := by
  cases s with
  | nil => simp
  | cons b s =>
    rw [List.splitOn_cons_eq_if_modifyHead]
    split_ifs with hb
    · obtain rfl : b = delim := eq_of_beq hb
      simp
    · have hne : b ≠ delim := fun h => hb (beq_iff_eq.mpr h)
      obtain ⟨p, ps, hps⟩ := List.exists_cons_of_ne_nil (List.splitOn_ne_nil delim s)
      simp [hps, hne]

theorem forall_mem_tail_splitOn : (∀ p ∈ (s.splitOn delim).tail, p ≠ []) ↔
    s.getLast? ≠ some delim ∧ s.IsChain fun a b => a ≠ delim ∨ b ≠ delim := by
  induction s with
  | nil => simp
  | cons b s ih =>
    rw [List.splitOn_cons_eq_if_modifyHead]
    split_ifs with hb
    · obtain rfl : b = delim := eq_of_beq hb
      rw [List.tail_cons, forall_mem_splitOn, ih]
      cases s with
      | nil => simp
      | cons c s => simp [List.isChain_cons_cons, List.getLast?_cons_cons, and_left_comm]
    · have hne : b ≠ delim := fun h => hb (beq_iff_eq.mpr h)
      rw [List.tail_modifyHead, ih]
      cases s with
      | nil => simp [hne]
      | cons c s => simp [List.isChain_cons_cons, List.getLast?_cons_cons, hne]

theorem forall_mem_splitOn_iff : (∀ p ∈ s.splitOn delim, p ≠ []) ↔ WellSpaced delim s := by
  rw [forall_mem_splitOn, forall_mem_tail_splitOn]
  constructor
  · rintro ⟨⟨hne, hhead⟩, hlast, hapart⟩
    exact ⟨hne, hhead, hlast, hapart⟩
  · intro h
    exact ⟨⟨h.ne_nil, h.head⟩, h.last, h.apart⟩

/-! ### What is terminated -/

theorem terminated_blanks_append (h : ∀ b ∈ blanks, b = delim) :
    terminated delim false (blanks ++ s) = blanks ++ terminated delim false s := by
  induction blanks with
  | nil => rfl
  | cons b blanks ih =>
    obtain ⟨rfl, h⟩ := List.forall_mem_cons.mp h
    rw [List.cons_append, terminated, if_pos rfl, ih h]
    rfl

theorem terminated_text_append (h : delim ∉ text) (inToken : Bool) :
    terminated delim inToken (text ++ s) =
      text ++ terminated delim (inToken || decide (text ≠ [])) s := by
  induction text generalizing inToken with
  | nil => simp
  | cons b text ih =>
    rw [List.mem_cons, not_or] at h
    rw [List.cons_append, terminated, if_neg (Ne.symm h.1), ih h.2]
    simp

theorem terminated_last (hblanks : ∀ b ∈ blanks, b = delim) (hnot : delim ∉ text) :
    terminated delim false (blanks ++ text) = blanks ++ text := by
  have htext := terminated_text_append (s := []) hnot false
  rw [List.append_nil] at htext
  rw [terminated_blanks_append hblanks, htext, terminated, List.append_nil]

theorem terminated_token (hblanks : ∀ b ∈ blanks, b = delim) (htext : text ≠ []) (hnot : delim ∉ text) :
    terminated delim false (blanks ++ (text ++ delim :: rest)) =
      blanks ++ text ++ [NUL] ++ terminated delim false rest := by
  rw [terminated_blanks_append hblanks, terminated_text_append hnot, terminated, if_pos rfl]
  simp [htext]

/-! ### The calls -/

section Span

variable {α : Type*} {p : α → Bool} {l r : List α} {a : α}

theorem takeWhile_append_cons (hl : ∀ x ∈ l, p x = true) (ha : p a = false) :
    (l ++ a :: r).takeWhile p = l := by
  rw [List.takeWhile_append_of_pos hl, List.takeWhile_cons_of_neg (by simp [ha]), List.append_nil]

theorem dropWhile_append_cons (hl : ∀ x ∈ l, p x = true) (ha : p a = false) :
    (l ++ a :: r).dropWhile p = a :: r := by
  rw [List.dropWhile_append_of_pos hl, List.dropWhile_cons_of_neg (by simp [ha])]

end Span

theorem strtok?_eq {b : UInt8} (hblanks : ∀ b ∈ blanks, b = delim) (hnot : delim ∉ text)
    (hnul : NUL ∉ text) (hb : b = delim ∨ b = NUL) (hfound : text = [] → b ≠ delim) :
    strtok? delim (blanks ++ (text ++ b :: rest)) =
      if text = [] then some none
      else if b = NUL then some (some ⟨text, blanks ++ text, NUL :: rest⟩)
      else some (some ⟨text, blanks ++ text ++ [NUL], rest⟩) := by
  obtain ⟨c, r, hc, hne⟩ : ∃ c r, text ++ b :: rest = c :: r ∧ decide (c = delim) = false := by
    cases text with
    | nil => exact ⟨b, rest, rfl, decide_eq_false (hfound rfl)⟩
    | cons c text =>
      rw [List.mem_cons, not_or] at hnot
      exact ⟨c, text ++ b :: rest, rfl, decide_eq_false (Ne.symm hnot.1)⟩
  have hskip : ∀ b ∈ blanks, decide (b = delim) = true := fun b hb => decide_eq_true (hblanks b hb)
  have htext : ∀ b ∈ text, decide (b ≠ delim ∧ b ≠ NUL) = true := by
    intro x hx
    refine decide_eq_true ⟨?_, ?_⟩
    · rintro rfl
      exact hnot hx
    · rintro rfl
      exact hnul hx
  have hstop : decide (b ≠ delim ∧ b ≠ NUL) = false :=
    decide_eq_false fun hne => hb.elim hne.1 hne.2
  simp only [strtok?]
  rw [hc, takeWhile_append_cons hskip hne, dropWhile_append_cons hskip hne, ← hc,
    takeWhile_append_cons htext hstop, dropWhile_append_cons htext hstop]

theorem strtok?_null (hdelim : delim ≠ NUL) (hblanks : ∀ b ∈ blanks, b = delim) :
    strtok? delim (blanks ++ NUL :: rest) = some none := by
  have hnull : strtok? delim (blanks ++ ([] ++ NUL :: rest)) = _ :=
    strtok?_eq hblanks List.not_mem_nil List.not_mem_nil (Or.inr rfl) fun _ => hdelim.symm
  exact hnull.trans (if_pos rfl)

theorem strtok?_last (hblanks : ∀ b ∈ blanks, b = delim) (htext : text ≠ []) (hnot : delim ∉ text)
    (hnul : NUL ∉ text) : strtok? delim (blanks ++ (text ++ NUL :: rest)) =
      some (some ⟨text, blanks ++ text, NUL :: rest⟩) := by
  rw [strtok?_eq hblanks hnot hnul (Or.inr rfl) fun h => absurd h htext, if_neg htext, if_pos rfl]

theorem strtok?_token (hdelim : delim ≠ NUL) (hblanks : ∀ b ∈ blanks, b = delim) (htext : text ≠ [])
    (hnot : delim ∉ text) (hnul : NUL ∉ text) : strtok? delim (blanks ++ (text ++ delim :: rest)) =
      some (some ⟨text, blanks ++ text ++ [NUL], rest⟩) := by
  rw [strtok?_eq hblanks hnot hnul (Or.inl rfl) fun h => absurd h htext, if_neg htext, if_neg hdelim]

/-! ### The loop -/

section Loop

variable {σ ε : Type*} {undefined : ε} {body : σ → Bytes → Except ε σ}

theorem tokenLoop_token {mem : Bytes} {t : Token} {fuel : Nat} {st : σ}
    (h : strtok? delim mem = some (some t)) : tokenLoop undefined delim body (fuel + 1) st mem =
      (body st t.text).bind fun st' =>
        (tokenLoop undefined delim body fuel st' t.behind).map fun r => (r.1, t.passed ++ r.2) := by
  simp only [tokenLoop, h]
  refine congrArg (Except.bind (body st t.text)) (funext fun st' => ?_)
  cases tokenLoop undefined delim body fuel st' t.behind <;> rfl

theorem tokenLoop_eq (hdelim : delim ≠ NUL) (hs : NUL ∉ s) (fuel : Nat) (hfuel : s.length < fuel)
    (st : σ) : tokenLoop undefined delim body fuel st (s ++ NUL :: rest) =
      (fun st' => (st', terminated delim false s ++ NUL :: rest)) <$> (words delim s).foldlM body st := by
  induction fuel generalizing s st with
  | zero => exact absurd hfuel (Nat.not_lt_zero _)
  | succ fuel ih =>
    rcases token_cases delim s with hblank | ⟨blanks, text, hblanks, htext, hnot, rfl | ⟨tail, rfl⟩⟩
    · have hterminated := terminated_blanks_append (s := []) hblank
      rw [List.append_nil] at hterminated
      rw [tokenLoop, strtok?_null hdelim hblank, words_blank hblank, hterminated]
      simp [terminated]
      rfl
    · rw [List.mem_append, not_or] at hs
      rw [List.length_append] at hfuel
      have hpos := List.length_pos_iff.mpr htext
      have hrest := ih (s := []) List.not_mem_nil (by rw [List.length_nil]; omega)
      rw [List.append_assoc, tokenLoop_token (strtok?_last hblanks htext hnot hs.2),
        words_last hblanks htext hnot, terminated_last hblanks hnot, List.foldlM_cons]
      cases body st text with
      | error e => rfl
      | ok st' =>
        show (tokenLoop undefined delim body fuel st' ([] ++ NUL :: rest)).map _ = _
        rw [hrest]
        rfl
    · simp only [List.mem_append, List.mem_cons, not_or] at hs
      simp only [List.length_append, List.length_cons] at hfuel
      have hrest := ih hs.2.2.2 (by omega)
      rw [List.append_assoc, List.append_assoc, List.cons_append,
        tokenLoop_token (strtok?_token hdelim hblanks htext hnot hs.2.1),
        words_token hblanks htext hnot, terminated_token hblanks htext hnot, List.foldlM_cons]
      cases body st text with
      | error e => rfl
      | ok st' =>
        show (tokenLoop undefined delim body fuel st' (tail ++ NUL :: rest)).map _ =
          _ <$> (words delim tail).foldlM body st'
        rw [hrest]
        cases (words delim tail).foldlM body st' with
        | error e => rfl
        | ok st'' => simp [Except.map]

end Loop

end OsExercises
