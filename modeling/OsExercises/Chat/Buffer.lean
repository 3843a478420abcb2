import OsExercises.Lib.CString

/-!
# The message buffer of a conversation

`conversation` of `src/exercise08/task_1/server.c` receives into a buffer that it never clears and takes
the string at its start for the message. `handled` are these strings for a sequence of chunks. They are
the messages of the stream only if the chunks hit them one by one, which is `Delivered`.
-/

namespace OsExercises.Chat

def BUF_SIZE : Nat := 128

def newline : UInt8 := 10

/-- What one `recv` stores. -/
structure Chunk where
  bytes : Bytes
  ne_nil : bytes ≠ []
  length_le : bytes.length ≤ BUF_SIZE

structure Message where
  bytes : Bytes
  notMem : newline ∉ bytes

/-- The loop behind `recv`. -/
def replaceNewlines (msgBuffer : Bytes) : Bytes :=
  msgBuffer.map fun b => if b = newline then NUL else b

/-- The buffer after `recv` and the loop behind it. -/
def receive (msgBuffer : Bytes) (chunk : Chunk) : Bytes :=
  replaceNewlines (overwrite msgBuffer chunk.bytes)

/-- The name and the messages that are printed; none if a string does not end in the buffer. -/
def handled : Bytes → List Chunk → Option (List Bytes)
  | _, [] => some []
  | msgBuffer, chunk :: chunks => do
    let s ← cString? (receive msgBuffer chunk)
    let rest ← handled (receive msgBuffer chunk) chunks
    return s :: rest

/-- The chunks hit the messages one by one. -/
inductive Delivered : Bytes → List Chunk → List Bytes → Prop
  | nil {msgBuffer : Bytes} : Delivered msgBuffer [] []
  /-- The chunk begins with a whole message. -/
  | whole {msgBuffer m : Bytes} {chunk : Chunk} {chunks : List Chunk} {messages : List Bytes}
      (hchunk : m ++ [newline] <+: chunk.bytes) (hrest : Delivered (receive msgBuffer chunk) chunks messages) :
    Delivered msgBuffer (chunk :: chunks) (m :: messages)
  /-- The chunk is the beginning of a message, and the buffer happens to hold the rest and a `NUL`. -/
  | completed {msgBuffer stale : Bytes} {chunk : Chunk} {chunks : List Chunk} {messages : List Bytes}
      (hstale : stale ++ [NUL] <+: replaceNewlines (msgBuffer.drop chunk.bytes.length))
      (hrest : Delivered (receive msgBuffer chunk) chunks messages) :
    Delivered msgBuffer (chunk :: chunks) ((chunk.bytes ++ stale) :: messages)

section Newlines

variable {l a b m : Bytes}

theorem replaceNewlines_append : replaceNewlines (a ++ b) = replaceNewlines a ++ replaceNewlines b :=
  List.map_append

theorem replaceNewlines_of_notMem (h : newline ∉ l) : replaceNewlines l = l := by
  refine (List.map_congr_left fun b hb => if_neg ?_).trans (List.map_id l)
  rintro rfl
  exact h hb

theorem notMem_of_replaceNewlines (h : NUL ∉ replaceNewlines l) : newline ∉ l := fun hmem =>
  h (List.mem_map.mpr ⟨newline, hmem, if_pos rfl⟩)

/-- Where the bytes have no `NUL`, the first one comes from a newline. -/
theorem append_newline_of_replaceNewlines (hl : NUL ∉ l) (hm : NUL ∉ m) (h : m ++ [NUL] <+: replaceNewlines l) :
    m ++ [newline] <+: l := by
  obtain ⟨t, ht⟩ := h
  obtain ⟨a, b, rfl, ha, -⟩ := List.map_eq_append_iff.mp ht.symm
  obtain ⟨a, c, rfl, ham, hc⟩ := List.map_eq_append_iff.mp ha
  obtain rfl : a = m := by
    rw [← ham] at hm ⊢
    exact (replaceNewlines_of_notMem (notMem_of_replaceNewlines hm)).symm
  obtain ⟨x, rfl⟩ := List.length_eq_one_iff.mp (by simpa using congrArg List.length hc)
  have hx : x = newline := by
    by_contra hne
    rw [List.map_singleton, if_neg hne, List.singleton_inj] at hc
    exact hl (by simp [hc])
  rw [hx]
  exact List.prefix_append _ _

end Newlines

section Receive

variable {msgBuffer m stale : Bytes} {chunk : Chunk}

theorem receive_eq : receive msgBuffer chunk =
    replaceNewlines chunk.bytes ++ replaceNewlines (msgBuffer.drop chunk.bytes.length) :=
  replaceNewlines_append

theorem cString?_receive_whole (hnul : NUL ∉ m) (hnl : newline ∉ m)
    (h : m ++ [newline] <+: chunk.bytes) : cString? (receive msgBuffer chunk) = some m := by
  obtain ⟨t, ht⟩ := h
  refine cString?_eq_some.mpr ⟨hnul, ?_⟩
  rw [receive_eq, ← ht, replaceNewlines_append, replaceNewlines_append, replaceNewlines_of_notMem hnl,
    List.append_assoc, List.append_assoc]
  exact (List.prefix_append_right_inj m).mpr (List.prefix_append _ _)

theorem cString?_receive_completed (hnul : NUL ∉ chunk.bytes ++ stale) (hnl : newline ∉ chunk.bytes)
    (h : stale ++ [NUL] <+: replaceNewlines (msgBuffer.drop chunk.bytes.length)) :
    cString? (receive msgBuffer chunk) = some (chunk.bytes ++ stale) := by
  refine cString?_eq_some.mpr ⟨hnul, ?_⟩
  rw [receive_eq, replaceNewlines_of_notMem hnl, List.append_assoc]
  exact (List.prefix_append_right_inj _).mpr h

theorem receive_cases (hchunk : NUL ∉ chunk.bytes) (h : cString? (receive msgBuffer chunk) = some m) :
    m ++ [newline] <+: chunk.bytes ∨ ∃ stale, m = chunk.bytes ++ stale ∧
      stale ++ [NUL] <+: replaceNewlines (msgBuffer.drop chunk.bytes.length) := by
  obtain ⟨hm, t, ht⟩ := cString?_eq_some.mp h
  rw [receive_eq] at ht
  rcases List.append_eq_append_iff.mp ht with ⟨a, ha, -⟩ | ⟨c, hc, hbehind⟩
  · exact Or.inl (append_newline_of_replaceNewlines hchunk hm ⟨a, ha.symm⟩)
  · rcases List.eq_nil_or_concat' c with rfl | ⟨stale, x, rfl⟩
    · refine Or.inl (append_newline_of_replaceNewlines hchunk hm ?_)
      rw [hc, List.append_nil]
    · right
      rw [← List.append_assoc] at hc
      obtain ⟨hm', hx⟩ := List.append_singleton_inj.mp hc
      subst hx
      have hnl : newline ∉ chunk.bytes := by
        refine notMem_of_replaceNewlines fun hmem => hm ?_
        rw [hm']
        exact List.mem_append_left _ hmem
      rw [replaceNewlines_of_notMem hnl] at hm'
      exact ⟨stale, hm', t, hbehind.symm⟩

end Receive

/-! ### The messages that are handled -/

section Handled

variable {msgBuffer : Bytes} {chunks : List Chunk} {messages : List Bytes}

theorem handled_cons {chunk : Chunk} : handled msgBuffer (chunk :: chunks) = some messages ↔
    ∃ s, cString? (receive msgBuffer chunk) = some s ∧
      ∃ rest, handled (receive msgBuffer chunk) chunks = some rest ∧ s :: rest = messages := by
  simp only [handled, Option.bind_eq_bind, Option.bind_eq_some_iff, Option.pure_def, Option.some.injEq]

theorem notMem_of_handled (h : handled msgBuffer chunks = some messages) : ∀ m ∈ messages, NUL ∉ m := by
  induction chunks generalizing msgBuffer messages with
  | nil =>
    cases h
    simp
  | cons chunk chunks ih =>
    obtain ⟨s, hs, rest, hrest, rfl⟩ := handled_cons.mp h
    exact List.forall_mem_cons.mpr ⟨(cString?_eq_some.mp hs).1, ih hrest⟩

theorem delivered_of_handled (hchunks : ∀ chunk ∈ chunks, NUL ∉ chunk.bytes)
    (h : handled msgBuffer chunks = some messages) : Delivered msgBuffer chunks messages := by
  induction chunks generalizing msgBuffer messages with
  | nil =>
    cases h
    exact .nil
  | cons chunk chunks ih =>
    obtain ⟨s, hs, rest, hrest, rfl⟩ := handled_cons.mp h
    obtain ⟨hchunk, hchunks⟩ := List.forall_mem_cons.mp hchunks
    rcases receive_cases hchunk hs with hwhole | ⟨stale, rfl, hstale⟩
    · exact .whole hwhole (ih hchunks hrest)
    · exact .completed hstale (ih hchunks hrest)

theorem handled_of_delivered (hnul : ∀ m ∈ messages, NUL ∉ m) (hnl : ∀ m ∈ messages, newline ∉ m)
    (h : Delivered msgBuffer chunks messages) : handled msgBuffer chunks = some messages := by
  induction h with
  | nil => rfl
  | whole hchunk _ ih =>
    obtain ⟨hnul, hnuls⟩ := List.forall_mem_cons.mp hnul
    obtain ⟨hnl, hnls⟩ := List.forall_mem_cons.mp hnl
    exact handled_cons.mpr ⟨_, cString?_receive_whole hnul hnl hchunk, _, ih hnuls hnls, rfl⟩
  | completed hstale _ ih =>
    obtain ⟨hnul, hnuls⟩ := List.forall_mem_cons.mp hnul
    obtain ⟨hnl, hnls⟩ := List.forall_mem_cons.mp hnl
    rw [List.mem_append, not_or] at hnl
    exact handled_cons.mpr ⟨_, cString?_receive_completed hnul hnl.1 hstale, _, ih hnuls hnls, rfl⟩

end Handled

/-- The chunks are the newline-terminated messages, split in some way. -/
def IsStream (chunks : List Chunk) (messages : List Message) : Prop :=
  (chunks.map Chunk.bytes).flatten = (messages.map fun m => m.bytes ++ [newline]).flatten

theorem handled_iff_delivered (msgBuffer : Bytes) (chunks : List Chunk) (messages : List Message)
    (hstream : IsStream chunks messages) :
    handled msgBuffer chunks = some (messages.map Message.bytes) ↔
      (∀ m ∈ messages, NUL ∉ m.bytes) ∧ Delivered msgBuffer chunks (messages.map Message.bytes) := by
  have hnuls : (∀ m ∈ messages.map Message.bytes, NUL ∉ m) ↔ ∀ m ∈ messages, NUL ∉ m.bytes :=
    List.forall_mem_map
  constructor
  · intro h
    have hnul := hnuls.mp (notMem_of_handled h)
    refine ⟨hnul, delivered_of_handled (fun chunk hchunk hmem => ?_) h⟩
    have hstreamed : NUL ∈ (chunks.map Chunk.bytes).flatten :=
      List.mem_flatten.mpr ⟨_, List.mem_map_of_mem hchunk, hmem⟩
    rw [hstream] at hstreamed
    obtain ⟨line, hline, hmem⟩ := List.mem_flatten.mp hstreamed
    obtain ⟨m, hm, rfl⟩ := List.mem_map.mp hline
    rcases List.mem_append.mp hmem with hmem | hmem
    · exact hnul m hm hmem
    · exact absurd hmem (by decide)
  · rintro ⟨hnul, hdelivered⟩
    refine handled_of_delivered (hnuls.mpr hnul) ?_ hdelivered
    exact List.forall_mem_map.mpr fun m _ => m.notMem

/-- `"a\n"` and `"b\n"` in two chunks. -/
theorem handled_iff_delivered_two : handled (List.replicate BUF_SIZE NUL)
      [⟨[97, 10], by decide, by decide⟩, ⟨[98, 10], by decide, by decide⟩] =
        some ([⟨[97], by decide⟩, ⟨[98], by decide⟩].map Message.bytes) ↔
      (∀ m ∈ [(⟨[97], by decide⟩ : Message), ⟨[98], by decide⟩], NUL ∉ m.bytes) ∧
        Delivered (List.replicate BUF_SIZE NUL)
          [⟨[97, 10], by decide, by decide⟩, ⟨[98, 10], by decide, by decide⟩]
          ([⟨[97], by decide⟩, ⟨[98], by decide⟩].map Message.bytes) :=
  handled_iff_delivered _ _ _ rfl

/-- `"a\nb\n"` in one chunk. -/
theorem not_handled_joined : ¬ ∀ (msgBuffer : Bytes) (chunks : List Chunk) (messages : List Message),
    msgBuffer.length = BUF_SIZE → (∀ m ∈ messages, m.bytes.length < BUF_SIZE) →
      IsStream chunks messages → handled msgBuffer chunks = some (messages.map Message.bytes) := by
  intro h
  have hjoined := h (List.replicate BUF_SIZE NUL) [⟨[97, 10, 98, 10], by decide, by decide⟩]
    [⟨[97], by decide⟩, ⟨[98], by decide⟩] List.length_replicate (by decide) rfl
  exact absurd hjoined (by decide +kernel)

end OsExercises.Chat
