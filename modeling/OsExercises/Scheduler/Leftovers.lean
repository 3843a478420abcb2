import OsExercises.Scheduler.Statistics

/-!
# What is left in the buffer

A message is stored at the start of the buffer, and read on to the next `NUL`: the stale bytes behind it
go on with its last integer and may hold more tokens. The statistics of a task are its own exactly if
these bytes are `Harmless` (`statistics_independent_iff`).
-/

namespace OsExercises.Scheduler

variable {numerals : List Numeral} {n : Numeral} {stale msgBuf str rest : Bytes} {vals : List Int}
  {sleeps : Nat → Bool}

/-- The integers, separated by single spaces. -/
def text : List Numeral → Bytes
  | [] => []
  | [n] => n.text
  | n :: m :: numerals => n.text ++ SPACE :: text (m :: numerals)

structure Task where
  numerals : List Numeral
  short : (text numerals).length < MSG_SIZE
  /-- The buffer of the service before the text is read into it. -/
  stdinBuf : Bytes

def Task.values (t : Task) : List Int := t.numerals.map Numeral.value

/-- The pass that receives what the service sends, without an interrupted sleep. -/
def Task.deliver (t : Task) : Pass := ⟨service t.stdinBuf (text t.numerals), fun _ => true, false⟩

/-- The statistics that a run prints, one for each pass. -/
def statistics (msgBuf : Bytes) (passes : List Pass) : Option (List (Option Stats)) :=
  (main msgBuf passes).map (List.map fun e => e.report.map Report.stats)

/-! ### The text and the bytes behind it -/

theorem notMem_text {c : UInt8} (hspace : c ≠ SPACE) (htext : ∀ n : Numeral, c ∉ n.text) :
    c ∉ text numerals := by
  induction numerals using text.induct with
  | case1 => exact List.not_mem_nil
  | case2 n => exact htext n
  | case3 n m numerals ih =>
    rw [text, List.mem_append, List.mem_cons, not_or, not_or]
    exact ⟨htext n, hspace, ih⟩

theorem nul_notMem_text : NUL ∉ text numerals :=
  notMem_text (by decide) fun _ => Numeral.notMem_text (by decide) (by decide) rfl

theorem space_notMem_text : SPACE ∉ n.text := Numeral.notMem_text (by decide) (by decide) rfl

theorem words_text_stale : words SPACE (text (numerals ++ [n]) ++ stale) =
    numerals.map Numeral.text ++
      (n.text ++ stale.takeWhile (· ≠ SPACE)) :: words SPACE (stale.dropWhile (· ≠ SPACE)) := by
  induction numerals with
  | nil => exact words_text_append Numeral.text_ne_nil space_notMem_text
  | cons m numerals ih =>
    have htext : text (m :: (numerals ++ [n])) = m.text ++ SPACE :: text (numerals ++ [n]) := by
      cases numerals <;> rfl
    rw [List.cons_append, htext, List.append_assoc, List.cons_append, words_append, ih,
      words_of_notMem space_notMem_text, if_neg Numeral.text_ne_nil]
    rfl

theorem takeWhile_isDigit :
    (stale.takeWhile (· ≠ SPACE)).takeWhile isDigit = stale.takeWhile isDigit := by
  rw [List.takeWhile_takeWhile]
  refine congrArg (fun p => stale.takeWhile p) (funext fun b => ?_)
  cases hdigit : isDigit b with
  | false => simp
  | true => simpa using ne_of_isDigit hdigit (c := SPACE) rfl

/-- The bytes behind a message neither change its last integer nor hold another token. -/
def Harmless (numerals : List Numeral) (stale : Bytes) : Prop :=
  match numerals.getLast? with
  | none => ∀ b ∈ stale, b = SPACE
  | some n =>
    (stale.takeWhile isDigit = [] ∨ n.value = 0 ∧ ∀ d ∈ stale.takeWhile isDigit, d = 48) ∧
      ∀ b ∈ stale.dropWhile (· ≠ SPACE), b = SPACE

def InRange (numerals : List Numeral) : Prop :=
  ∀ n ∈ numerals, INT_MIN ≤ n.value ∧ n.value ≤ INT_MAX

theorem map_atoi?_text : (numerals.map Numeral.text).map atoi? = vals.map some ↔
    InRange numerals ∧ vals = numerals.map Numeral.value := by
  induction numerals generalizing vals with
  | nil =>
    constructor
    · intro h
      exact ⟨List.forall_mem_nil _, List.map_eq_nil_iff.mp h.symm⟩
    · rintro ⟨-, rfl⟩
      rfl
  | cons n numerals ih =>
    unfold InRange at ih ⊢
    rw [List.forall_mem_cons]
    cases vals with
    | nil => simp
    | cons val vals =>
      simp only [List.map_cons, List.cons.injEq, ih, Numeral.atoi?_text, inInt?_eq_some]
      constructor
      · rintro ⟨⟨rfl, hrange⟩, htail, rfl⟩
        exact ⟨⟨hrange, htail⟩, rfl, rfl⟩
      · rintro ⟨⟨hrange, htail⟩, rfl, rfl⟩
        exact ⟨⟨rfl, hrange⟩, htail, rfl⟩

theorem atoi?_stale {val : Int} : atoi? (n.text ++ stale.takeWhile (· ≠ SPACE)) = some val ↔
    signed (n.sign = .minus) (digitsValue (n.digits ++ stale.takeWhile isDigit)) = val ∧
      INT_MIN ≤ val ∧ val ≤ INT_MAX := by
  rw [Numeral.atoi?_text_append, takeWhile_isDigit, inInt?_eq_some]
  refine and_congr_right fun hval => ?_
  rw [hval]

theorem isDigit_of_mem_takeWhile {d : UInt8} (hd : d ∈ stale.takeWhile isDigit) : isDigit d = true :=
  List.mem_takeWhile_imp hd

/-- The count and the sum are enough to see what is read. -/
theorem values_of_count_sum (hwords : (words SPACE (text numerals ++ stale)).map atoi? = vals.map some)
    (hcount : vals.length = numerals.length) (hsum : vals.sum = (numerals.map Numeral.value).sum) :
    vals = numerals.map Numeral.value := by
  induction numerals using List.reverseRecOn with
  | nil => exact List.length_eq_zero_iff.mp hcount
  | append_singleton numerals n _ =>
    rw [words_text_stale, List.map_append, List.map_cons] at hwords
    obtain ⟨init, vals, rfl, hinit, hlast⟩ := List.map_eq_append_iff.mp hwords.symm
    obtain ⟨-, rfl⟩ := map_atoi?_text.mp hinit.symm
    simp only [List.length_append, List.length_map, List.length_singleton] at hcount
    obtain ⟨last, rfl⟩ := List.length_eq_one_iff.mp (show vals.length = 1 by omega)
    simp only [List.map_append, List.sum_append, List.sum_singleton, List.map_singleton] at hsum ⊢
    rw [show last = n.value by omega]

theorem words_text_iff : (words SPACE (text numerals ++ stale)).map atoi? =
    (numerals.map Numeral.value).map some ↔ InRange numerals ∧ Harmless numerals stale := by
  cases numerals using List.reverseRecOn with
  | nil =>
    show (words SPACE stale).map atoi? = [] ↔ InRange [] ∧ ∀ b ∈ stale, b = SPACE
    rw [List.map_eq_nil_iff, words_eq_nil_iff]
    simp [InRange]
  | append_singleton numerals n =>
    have hrange : InRange (numerals ++ [n]) ↔
        InRange numerals ∧ INT_MIN ≤ n.value ∧ n.value ≤ INT_MAX := by
      unfold InRange
      rw [List.forall_mem_append, List.forall_mem_singleton]
    have hlast : Harmless (numerals ++ [n]) stale ↔
        (stale.takeWhile isDigit = [] ∨ n.value = 0 ∧ ∀ d ∈ stale.takeWhile isDigit, d = 48) ∧
          ∀ b ∈ stale.dropWhile (· ≠ SPACE), b = SPACE := by
      simp [Harmless]
    rw [words_text_stale, hrange, hlast, ← Numeral.value_append_eq_iff fun _ => isDigit_of_mem_takeWhile,
      ← words_eq_nil_iff]
    simp only [List.map_append, List.map_cons, List.map_nil]
    constructor
    · intro h
      obtain ⟨hinit, hlast⟩ := List.append_inj h (by simp)
      rw [List.cons.injEq, List.map_eq_nil_iff, atoi?_stale] at hlast
      exact ⟨⟨(map_atoi?_text.mp hinit).1, hlast.1.2⟩, hlast.1.1, hlast.2⟩
    · rintro ⟨⟨hinit, hn⟩, hvalue, hmore⟩
      rw [map_atoi?_text.mpr ⟨hinit, rfl⟩, hmore, atoi?_stale.mpr ⟨hvalue, hn⟩]
      rfl

/-! ### A task -/

theorem service_text (stdinBuf : Bytes) : service stdinBuf (text numerals) = some (text numerals) := by
  rw [service, overwrite, List.append_assoc]
  exact cString?_append nul_notMem_text

theorem receive_deliver (t : Task) (msgBuf : Bytes) : t.deliver.receive msgBuf =
    text t.numerals ++ msgBuf.drop (text t.numerals).length := by
  rw [Pass.receive, Task.deliver, service_text]
  rfl

/-- The string that is read goes on to the first `NUL` behind the message. -/
theorem text_append_eq {behind : Bytes} (h : text numerals ++ behind = str ++ NUL :: rest) :
    ∃ stale, str = text numerals ++ stale ∧ behind = stale ++ NUL :: rest := by
  rcases List.append_eq_append_iff.mp h with ⟨stale, hstr, hbehind⟩ | ⟨c, htext, hrest⟩
  · exact ⟨stale, hstr, hbehind⟩
  · cases c with
    | nil => exact ⟨[], by simpa using htext.symm, hrest.symm⟩
    | cons b c =>
      obtain ⟨rfl, -⟩ := List.cons_eq_cons.mp hrest
      have hmem : NUL ∈ text numerals := by
        rw [htext]
        exact List.mem_append_right str List.mem_cons_self
      exact absurd hmem nul_notMem_text

theorem statistics_cons {t : Task} {passes : List Pass} {stats : Stats} {tail : List (Option Stats)} :
    statistics msgBuf (t.deliver :: passes) = some (some stats :: tail) ↔
      ∃ r, process (fun _ => true) (text t.numerals ++ msgBuf.drop (text t.numerals).length) = .ok r ∧
        r.1.stats = stats ∧ statistics r.2 passes = some tail := by
  rw [← receive_deliver]
  unfold statistics
  cases hprocess : process t.deliver.sleeps (t.deliver.receive msgBuf) with
  | error e =>
    have hnot : ¬ ∃ r, process (fun _ => true) (t.deliver.receive msgBuf) = .ok r ∧
        r.1.stats = stats ∧ statistics r.2 passes = some tail := by
      rintro ⟨r, hr, -⟩
      cases hprocess.symm.trans hr
    refine iff_of_false ?_ hnot
    cases e with
    | undefined => simp [main_undefined hprocess]
    | sleep => simp [main_sleep hprocess]
  | ok r =>
    rw [main_ok hprocess, show t.deliver.shutdown = false from rfl, if_neg Bool.false_ne_true]
    rw [Option.map_map]
    constructor
    · intro h
      obtain ⟨log, hlog, heq⟩ := Option.map_eq_some_iff.mp h
      obtain ⟨hstats, htail⟩ := List.cons_eq_cons.mp heq
      exact ⟨r, hprocess, Option.some.inj hstats, Option.map_eq_some_iff.mpr ⟨log, hlog, htail⟩⟩
    · rintro ⟨r', hr', rfl, htail⟩
      obtain rfl : r = r' := Except.ok.inj (hprocess.symm.trans hr')
      obtain ⟨log, hlog, rfl⟩ := Option.map_eq_some_iff.mp htail
      exact Option.map_eq_some_iff.mpr ⟨log, hlog, rfl⟩

/-! ### A run -/

/-- The bytes behind each message are harmless when it is received, and its own integers and their sums are
in the range of `int`. -/
inductive Undisturbed : Bytes → List Task → Prop
  | nil (msgBuf : Bytes) : Undisturbed msgBuf []
  | cons {msgBuf stale rest : Bytes} {t : Task} {tasks : List Task}
      (behind : msgBuf.drop (text t.numerals).length = stale ++ NUL :: rest)
      (notMem : NUL ∉ stale)
      (harmless : Harmless t.numerals stale)
      (inRange : InRange t.numerals)
      (sumsFit : SumsFit t.values)
      (tail : Undisturbed (terminated SPACE false (text t.numerals ++ stale) ++ NUL :: rest) tasks) :
      Undisturbed msgBuf (t :: tasks)

theorem statistics_independent_iff (msgBuf : Bytes) (tasks : List Task) :
    statistics msgBuf (tasks.map Task.deliver) = some (tasks.map fun t => some (statsOf t.values)) ↔
      Undisturbed msgBuf tasks := by
  induction tasks generalizing msgBuf with
  | nil => exact ⟨fun _ => .nil msgBuf, fun _ => rfl⟩
  | cons t tasks ih =>
    rw [List.map_cons, List.map_cons, statistics_cons]
    constructor
    · rintro ⟨r, hr, hstats, htail⟩
      obtain ⟨str, rest, vals, hcounted, rfl⟩ := process_eq_ok hr
      obtain ⟨stale, rfl, hbehind⟩ := text_append_eq hcounted.eq
      obtain rfl : vals = t.values := by
        have hcount : vals.length = t.values.length := congrArg Stats.count hstats
        refine values_of_count_sum hcounted.words (by rw [hcount, Task.values, List.length_map]) ?_
        exact congrArg Stats.sum hstats
      have hstale := (List.mem_append.not.mp hcounted.notMem)
      rw [not_or] at hstale
      obtain ⟨hrange, hharmless⟩ := words_text_iff.mp hcounted.words
      exact .cons hbehind hstale.2 hharmless hrange hcounted.sumsFit ((ih _).mp htail)
    · rintro (_ | ⟨hbehind, hstale, hharmless, hrange, hsums, htail⟩)
      rename_i stale rest
      have hcounted : Counted (fun _ => true) (text t.numerals ++ msgBuf.drop (text t.numerals).length)
          (text t.numerals ++ stale) rest t.values := by
        refine ⟨by rw [hbehind, List.append_assoc], ?_, words_text_iff.mpr ⟨hrange, hharmless⟩, hsums,
          fun _ _ => rfl⟩
        rw [List.mem_append, not_or]
        exact ⟨nul_notMem_text, hstale⟩
      exact ⟨_, hcounted.process, rfl, (ih _).mpr htail⟩

/-- The text 5 after the text 10 20: the bytes of the 10 are there with a 5 in front, which is 50. -/
theorem shorter_text_reads_leftovers :
    let tasks : List Task :=
      [⟨[⟨.none, [49, 48], List.cons_ne_nil _ _, List.all_eq_true.mp rfl⟩,
          ⟨.none, [50, 48], List.cons_ne_nil _ _, List.all_eq_true.mp rfl⟩],
          by decide, List.replicate MSG_SIZE NUL⟩,
        ⟨[⟨.none, [53], List.cons_ne_nil _ _, List.all_eq_true.mp rfl⟩], by decide,
          List.replicate MSG_SIZE NUL⟩]
    statistics (List.replicate MSG_SIZE NUL) (tasks.map Task.deliver) =
        some [some ⟨20, 10, 30, 2⟩, some ⟨50, 50, 50, 1⟩] ∧
      statistics (List.replicate MSG_SIZE NUL) (tasks.map Task.deliver) ≠
        some (tasks.map fun t => some (statsOf t.values)) := by
  intro tasks
  have hrun : statistics (List.replicate MSG_SIZE NUL) (tasks.map Task.deliver) =
      some [some ⟨20, 10, 30, 2⟩, some ⟨50, 50, 50, 1⟩] := by decide +kernel
  refine ⟨hrun, ?_⟩
  rw [hrun]
  decide +kernel

end OsExercises.Scheduler
