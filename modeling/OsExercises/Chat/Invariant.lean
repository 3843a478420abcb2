import OsExercises.Chat.Model
import OsExercises.Lib.Mutex

/-!
# Invariant of the chat server

A thread inside a critical section has the mutex; the listener gives it back, a conversation need not.
The message count of a conversation is never below 1 when it is tested, so the branch of `/shutdown` is
never taken.
-/

namespace OsExercises.Chat

/-- In the branch of `/shutdown`. -/
def ConversationPc.shutsDown : ConversationPc → Bool
  | .locking l | .comparing l | .unlocking l => l = .shutdown
  | .cancelling | .waiting | .printing => true
  | _ => false

theorem Lookup.shutsDown_return {l : Lookup} (hl : l ≠ .shutdown) (isAdmin : Bool) :
    (l.return isAdmin).shutsDown = false := by
  cases l with
  | connected | disconnected => rfl
  | shutdown => exact absurd rfl hl

theorem Lookup.holds_return (l : Lookup) (isAdmin : Bool) : (l.return isAdmin).holds = false := by
  cases l with
  | connected | disconnected => rfl
  | shutdown => cases isAdmin <;> rfl

/-- The newest conversation has no thread yet. -/
def ListenerPc.makes : ListenerPc → Bool
  | .initUnlocking | .creating => true
  | _ => false

/-! ### One conversation -/

/-- The buffer was `msgBuffer` in the beginning. -/
structure Conversation.Inv (msgBuffer : Bytes) (c : Conversation) : Prop where
  msgCount : c.msgCount = c.chunks.length
  shutsDown : c.pc.shutsDown = false
  buffer : c.msgBuffer = c.chunks.foldl receive msgBuffer
  heard : handled msgBuffer c.chunks = some c.heard
  name : c.name = c.heard.head?

theorem handled_concat {msgBuffer s : Bytes} {chunks : List Chunk} {heard : List Bytes} {chunk : Chunk}
    (h : handled msgBuffer chunks = some heard)
    (hs : cString? (receive (chunks.foldl receive msgBuffer) chunk) = some s) :
    handled msgBuffer (chunks ++ [chunk]) = some (heard ++ [s]) := by
  induction chunks generalizing msgBuffer heard with
  | nil =>
    cases h
    exact handled_cons.mpr ⟨s, hs, [], rfl, rfl⟩
  | cons c chunks ih =>
    obtain ⟨s', hs', rest, hrest, rfl⟩ := handled_cons.mp h
    exact handled_cons.mpr ⟨s', hs', rest ++ [s], ih hrest hs, rfl⟩

theorem length_of_handled {msgBuffer : Bytes} {chunks : List Chunk} {heard : List Bytes}
    (h : handled msgBuffer chunks = some heard) : heard.length = chunks.length := by
  induction chunks generalizing msgBuffer heard with
  | nil => cases h; rfl
  | cons c chunks ih =>
    obtain ⟨s, -, rest, hrest, rfl⟩ := handled_cons.mp h
    rw [List.length_cons, List.length_cons, ih hrest]

namespace Conversation

variable {msgBuffer : Bytes} {c c' : Conversation}

theorem Inv.start : Inv msgBuffer (start msgBuffer) := ⟨rfl, rfl, rfl, rfl, rfl⟩

theorem Inv.go {pc : ConversationPc} (h : Inv msgBuffer c) (hpc : pc.shutsDown = false) :
    Inv msgBuffer { c with pc := pc } := ⟨h.msgCount, hpc, h.buffer, h.heard, h.name⟩

theorem holds_branch (msgCount : Int) (s : Bytes) : (branch msgCount s).holds = false := by
  unfold branch
  split_ifs <;> rfl

theorem shutsDown_branch {msgCount : Int} (h : 1 ≤ msgCount) (s : Bytes) :
    (branch msgCount s).shutsDown = false := by
  unfold branch
  split_ifs
  · rfl
  · rfl
  · omega
  · rfl

theorem recv_chunk {chunk : Chunk} (h : c.recv (.chunk chunk) = some c') :
    ∃ msgCount s, intAdd? c.msgCount 1 = some msgCount ∧
      cString? (receive c.msgBuffer chunk) = some s ∧
      c' = ⟨branch msgCount s, if msgCount = 1 then some s else c.name, receive c.msgBuffer chunk,
        msgCount, c.chunks ++ [chunk], c.heard ++ [s]⟩ := by
  simp only [recv, Option.bind_eq_bind, Option.bind_eq_some_iff, Option.pure_def,
    Option.some.injEq] at h
  obtain ⟨msgCount, hadd, s, hs, rfl⟩ := h
  exact ⟨msgCount, s, hadd, hs, rfl⟩

theorem holds_recv {r : Received} (h : c.recv r = some c') : c'.pc.holds = false := by
  cases r with
  | error => cases h; rfl
  | closed => cases h; rfl
  | chunk chunk =>
    obtain ⟨msgCount, s, -, -, rfl⟩ := recv_chunk h
    exact holds_branch msgCount s

theorem Inv.recv {r : Received} (h : Inv msgBuffer c) (hc : c.recv r = some c') :
    Inv msgBuffer c' := by
  cases r with
  | error => cases hc; exact h.go rfl
  | closed => cases hc; exact h.go rfl
  | chunk chunk =>
    obtain ⟨msgCount, s, hadd, hs, rfl⟩ := recv_chunk hc
    obtain ⟨rfl, -⟩ := intAdd?_cases hadd
    have hcount := h.msgCount
    rw [h.buffer] at hs
    refine ⟨?_, shutsDown_branch (by omega) s, ?_, handled_concat h.heard hs, ?_⟩
    · simp [hcount]
    · simp [h.buffer]
    · have hlength := length_of_handled h.heard
      have hname := h.name
      cases hheard : c.heard with
      | nil =>
        rw [hheard] at hlength
        exact if_pos (by rw [hcount, ← hlength]; rfl)
      | cons name heard =>
        rw [hheard] at hlength hname
        rw [List.length_cons] at hlength
        exact (if_neg (by omega)).trans hname

end Conversation

/-! ### The server -/

namespace System

def holds (σ : System) : Thread → Bool
  | .listener => σ.listener.holds
  | .conversation i => (σ.conversations i).pc.holds

structure Inv (msgBuffers : Nat → Bytes) (σ : System) : Prop where
  conversation : ∀ i, (σ.conversations i).Inv (msgBuffers i)
  cancelled : σ.cancelled = false
  connectedClients : σ.connectedClients = σ.created
  mutex : Guards σ.mutex σ.holds
  listener : σ.mutex = some .listener → σ.listener.holds = true
  fresh : ∀ i, σ.created ≤ i → (σ.conversations i).pc = .created
  made : σ.listener.makes = true → 0 < σ.created ∧ (σ.conversations (σ.created - 1)).pc = .created

variable {config : Config} {msgBuffers : Nat → Bytes} {σ σ' : System} {i : Nat}

theorem Inv.start : Inv msgBuffers (start msgBuffers) where
  conversation _ := .start
  cancelled := rfl
  connectedClients := rfl
  mutex t ht := by cases t <;> cases ht
  listener h := by cases h
  fresh _ _ := rfl
  made h := by cases h

/-! ### Who has the mutex -/

theorem holds_set_of_ne {t : Thread} {c : Conversation} (ht : t ≠ .conversation i) :
    (σ.set i c).holds t = σ.holds t := by
  cases t with
  | listener => rfl
  | conversation j =>
    have hj : j ≠ i := fun hj => ht (congrArg _ hj)
    exact congrArg (fun c : Conversation => c.pc.holds) (Function.update_of_ne hj ..)

/-- The steps of the listener are outside of the critical sections of the conversations. -/
theorem holds_listener_of_ne {mutex : Option Thread} {n : Int} {l : ListenerPc} {created : Nat} {t : Thread}
    (ht : t ≠ .listener) : holds ⟨mutex, n, l, σ.cancelled, created, σ.conversations⟩ t = σ.holds t := by
  cases t with
  | listener => exact absurd rfl ht
  | conversation => rfl

theorem holds_set_self {c : Conversation} : (σ.set i c).holds (.conversation i) = c.pc.holds :=
  congrArg (fun c : Conversation => c.pc.holds) (Function.update_self ..)

namespace Inv

/-- A step of conversation `i`. -/
theorem set {c : Conversation} {mutex : Option Thread} (h : Inv msgBuffers σ)
    (hpc : (σ.conversations i).pc ≠ .created) (hc : c.Inv (msgBuffers i)) (hmutex : Guards mutex (σ.set i c).holds)
    (hlistener : mutex = some .listener → σ.mutex = some .listener) :
    Inv msgBuffers { σ.set i c with mutex := mutex } where
  conversation := (Function.forall_update_iff _ fun i (c : Conversation) => c.Inv (msgBuffers i)).mpr ⟨hc, fun j _ => h.conversation j⟩
  cancelled := h.cancelled
  connectedClients := h.connectedClients
  mutex := hmutex
  listener hm := h.listener (hlistener hm)
  fresh j hj := by
    have hji : j ≠ i := by
      rintro rfl
      exact hpc (h.fresh j hj)
    exact (congrArg Conversation.pc (Function.update_of_ne hji ..)).trans (h.fresh j hj)
  made hmade := by
    have hji : σ.created - 1 ≠ i := by
      rintro rfl
      exact hpc (h.made hmade).2
    exact ⟨(h.made hmade).1,
      (congrArg Conversation.pc (Function.update_of_ne hji ..)).trans (h.made hmade).2⟩

theorem go {pc : ConversationPc} (h : Inv msgBuffers σ) (hpc : pc.shutsDown = false) :
    { σ.conversations i with pc := pc }.Inv (msgBuffers i) := (h.conversation i).go hpc

theorem shutsDown {pc : ConversationPc} (h : Inv msgBuffers σ)
    (hpc : (σ.conversations i).pc = pc) :
    pc.shutsDown = false := by
  rw [← hpc]
  exact (h.conversation i).shutsDown

/-- A step of conversation `i` that leaves the mutex as it is. -/
theorem setMoved {c : Conversation} (h : Inv msgBuffers σ) (hpc : (σ.conversations i).pc ≠ .created)
    (hc : c.Inv (msgBuffers i)) (hholds : c.pc.holds = true → (σ.conversations i).pc.holds = true) :
    Inv msgBuffers (σ.set i c) := by
  refine h.set hpc hc (h.mutex.move (t := .conversation i) ?_ fun u hu => holds_set_of_ne hu) id
  rw [holds_set_self]
  exact hholds

/-- The listener has the mutex only in its critical sections. -/
theorem listener_free (h : Inv msgBuffers σ) (hpc : σ.listener.holds = false) :
    σ.mutex ≠ some .listener := by
  intro hm
  rw [h.listener hm] at hpc
  cases hpc

theorem conversationStep (h : Inv msgBuffers σ) (hs : ConversationStep config σ i σ') : Inv msgBuffers σ' := by
  cases hs with
  | @recv r c hpc hc =>
    refine h.setMoved (by rw [hpc]; exact ConversationPc.noConfusion) ((h.conversation i).recv hc) ?_
    rw [Conversation.holds_recv hc]
    exact Bool.noConfusion
  | @lock l hpc hfree =>
    have hl : l ≠ .shutdown := of_decide_eq_false (h.shutsDown hpc)
    have hmutex := h.mutex
    rw [hfree] at hmutex
    refine h.set (by rw [hpc]; exact ConversationPc.noConfusion) (h.go (decide_eq_false hl))
      (hmutex.acquire fun u hu => holds_set_of_ne hu) ?_
    intro hlistener
    cases hlistener
  | @admin l name hpc =>
    have hl : l ≠ .shutdown := of_decide_eq_false (h.shutsDown hpc)
    refine h.setMoved (by rw [hpc]; exact ConversationPc.noConfusion)
      (h.go (Lookup.shutsDown_return hl true)) ?_
    rw [Lookup.holds_return]
    exact Bool.noConfusion
  | @notAdmin l name hpc =>
    have hl : l ≠ .shutdown := of_decide_eq_false (h.shutsDown hpc)
    refine h.setMoved (by rw [hpc]; exact ConversationPc.noConfusion) (h.go (decide_eq_false hl)) ?_
    intro _
    rw [hpc]
    rfl
  | @unlock l hpc =>
    have hl : l ≠ .shutdown := of_decide_eq_false (h.shutsDown hpc)
    refine h.set (by rw [hpc]; exact ConversationPc.noConfusion)
      (h.go (Lookup.shutsDown_return hl false))
      (h.mutex.release (t := .conversation i) ?_ ?_ fun u hu => holds_set_of_ne hu) ?_
    · rw [holds, hpc]
      rfl
    · rw [holds_set_self, Lookup.holds_return]
    · intro hlistener
      cases hlistener
  | cancel hpc => cases h.shutsDown hpc
  | wait hpc => cases h.shutsDown hpc
  | print hpc => cases h.shutsDown hpc

/-- The listener goes on, and neither makes a conversation nor starts one. -/
theorem listenerMoved {mutex : Option Thread} {l : ListenerPc} (h : Inv msgBuffers σ)
    (hmutex : Guards mutex { σ with mutex := mutex, listener := l }.holds)
    (hlistener : mutex = some .listener → l.holds = true)
    (hmakes : l.makes = true → σ.listener.makes = true) :
    Inv msgBuffers { σ with mutex := mutex, listener := l } where
  conversation := h.conversation
  cancelled := h.cancelled
  connectedClients := h.connectedClients
  mutex := hmutex
  listener := hlistener
  fresh := h.fresh
  made hl := h.made (hmakes hl)

/-- The listener takes the mutex. -/
theorem listenerLocked {l : ListenerPc} (h : Inv msgBuffers σ) (hfree : σ.mutex = none)
    (hholds : l.holds = true) (hmakes : l.makes = false) :
    Inv msgBuffers { σ with mutex := some .listener, listener := l } := by
  have hmutex := h.mutex
  rw [hfree] at hmutex
  refine h.listenerMoved (hmutex.acquire fun _ => holds_listener_of_ne) (fun _ => hholds) ?_
  rw [hmakes]
  exact Bool.noConfusion

/-- The listener gives up the mutex. -/
theorem listenerUnlocked {l : ListenerPc} (h : Inv msgBuffers σ) (hheld : σ.holds .listener = true)
    (hholds : l.holds = false) (hmakes : l.makes = true → σ.listener.makes = true) :
    Inv msgBuffers { σ with mutex := none, listener := l } :=
  h.listenerMoved (h.mutex.release hheld hholds fun _ => holds_listener_of_ne)
    (fun hm => absurd hm.symm (Option.some_ne_none _)) hmakes

theorem listenerStep (h : Inv msgBuffers σ) (hs : ListenerStep σ σ') : Inv msgBuffers σ' := by
  cases hs with
  | lock hpc hfree => exact h.listenerLocked hfree rfl rfl
  | @unlock accepted hpc =>
    refine h.listenerUnlocked (by rw [holds, hpc]; rfl) ?_ ?_
    · split <;> rfl
    · split <;> exact Bool.noConfusion
  | initLock hpc hfree => exact h.listenerLocked hfree rfl rfl
  | @count n hpc hadd =>
    have hheld : σ.holds .listener = true := by rw [holds, hpc]; rfl
    refine ⟨h.conversation, h.cancelled, ?_,
      h.mutex.move (t := .listener) (fun _ => hheld) fun _ => holds_listener_of_ne, fun _ => rfl,
      fun i hi => h.fresh i (Nat.le_of_succ_le hi),
      fun _ => ⟨Nat.succ_pos _, h.fresh _ (Nat.le_refl _)⟩⟩
    rw [(intAdd?_cases hadd).1, h.connectedClients]
    rfl
  | initUnlock hpc => exact h.listenerUnlocked (by rw [holds, hpc]; rfl) rfl fun _ => by rw [hpc]; rfl
  | accept hpc =>
    have hheld : σ.holds .listener = true := by rw [holds, hpc]; rfl
    exact h.listenerMoved (h.mutex.move (t := .listener) (fun _ => hheld) fun _ => holds_listener_of_ne)
      (fun _ => rfl) Bool.noConfusion
  | cancel hpc hcancelled => cases h.cancelled.symm.trans hcancelled
  | create hpc =>
    have hlistener := h.listener_free (by rw [hpc]; rfl)
    obtain ⟨hpos, hcreated⟩ := h.made (by rw [hpc]; rfl)
    refine ⟨?_, h.cancelled, h.connectedClients, ?_, fun hm => absurd hm hlistener, fun j hj => ?_,
      Bool.noConfusion⟩
    · exact (Function.forall_update_iff _ fun i (c : Conversation) => c.Inv (msgBuffers i)).mpr
        ⟨(h.conversation _).go rfl, fun j _ => h.conversation j⟩
    · refine h.mutex.move (t := .conversation (σ.created - 1)) ?_ fun u hu =>
        (holds_set_of_ne hu).trans ?_
      · intro hholds
        rw [System.go, holds_set_self] at hholds
        cases hholds
      · cases u with
        | listener => rw [holds, holds, hpc]; rfl
        | conversation => rfl
    · have hj : σ.created ≤ j := hj
      have hne : j ≠ σ.created - 1 := by omega
      exact (congrArg Conversation.pc (Function.update_of_ne hne ..)).trans (h.fresh j hj)
  | createFails hpc =>
    have hlistener := h.listener_free (by rw [hpc]; rfl)
    refine h.listenerMoved (h.mutex.move (t := .listener) Bool.noConfusion fun _ => holds_listener_of_ne)
      (fun hm => absurd hm hlistener) Bool.noConfusion

theorem step {e : Event} (h : Inv msgBuffers σ) (hs : σ.step config e = some σ') : Inv msgBuffers σ' := by
  rcases step_cases hs with hs | ⟨i, -, hs⟩
  · exact h.listenerStep hs
  · exact h.conversationStep hs

end Inv

end System
end OsExercises.Chat
