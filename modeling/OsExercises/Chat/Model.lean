import OsExercises.Chat.Buffer
import OsExercises.Lib.CInt
import OsExercises.Lib.Transition

/-!
# The chat server

The listener and the conversations of `src/exercise08/task_1/server.c`. What a client sends, and whether
`accept` and `pthread_create` succeed, is part of the events. A step between two accesses to what the
threads share is taken as one.
-/

namespace OsExercises.Chat

/-! ### The configuration -/

structure Config where
  /-- The names on the command line. -/
  given : List Bytes
  /-- The other entries are not set; they are never read (`Config.serverUserIsAdmin?`). -/
  admins : List Bytes
  given_ne_nil : given ≠ []
  given_admins : given <+: admins
  length_admins : admins.length = 5

/-- The loop of `server_user_is_admin`. -/
def serverUserIsAdmin (name : Bytes) : List Bytes → Bool
  | [] => false
  | admin :: admins => if admin ≠ name then true else serverUserIsAdmin name admins

/-- How many entries `server_user_is_admin` compares with the name. -/
def comparisons (name : Bytes) : List Bytes → Nat
  | [] => 0
  | admin :: admins => if admin ≠ name then 1 else comparisons name admins + 1

/-- `none` if the search gets to an entry that is not set. -/
def Config.serverUserIsAdmin? (config : Config) (name : Bytes) : Option Bool :=
  if comparisons name config.admins ≤ config.given.length then
    some (serverUserIsAdmin name config.admins)
  else none

theorem Config.serverUserIsAdmin_of_eq_some {config : Config} {name : Bytes} {isAdmin : Bool}
    (h : config.serverUserIsAdmin? name = some isAdmin) :
    serverUserIsAdmin name config.admins = isAdmin := by
  unfold serverUserIsAdmin? at h
  split_ifs at h
  exact Option.some.inj h

/-- `"/shutdown"`. -/
def SHUTDOWN : Bytes := [47, 115, 104, 117, 116, 100, 111, 119, 110]

/-! ### The threads -/

inductive Thread where
  | listener
  | conversation (i : Nat)
deriving DecidableEq

inductive ListenerPc where
  | locking
  | accepting
  /-- After `accept`, which succeeded or not. -/
  | unlocking (accepted : Bool)
  /-- In `conversation_init`. -/
  | initLocking
  | counting
  | initUnlocking
  | creating
  | ended
deriving DecidableEq

def ListenerPc.holds : ListenerPc → Bool
  | .accepting | .unlocking _ | .counting | .initUnlocking => true
  | _ => false

/-- The calls of `server_user_is_admin`. -/
inductive Lookup where
  | connected
  | disconnected
  | shutdown
deriving DecidableEq

inductive ConversationPc where
  /-- The thread does not run. -/
  | created
  | receiving
  | locking (l : Lookup)
  | comparing (l : Lookup)
  | unlocking (l : Lookup)
  | cancelling
  /-- Before and after `pthread_mutex_lock` in the branch of `/shutdown`. -/
  | waiting
  | printing
  | ended
deriving DecidableEq

def ConversationPc.holds : ConversationPc → Bool
  | .comparing _ | .unlocking _ | .printing => true
  | _ => false

/-- Where `server_user_is_admin` returns to. -/
def Lookup.return : Lookup → Bool → ConversationPc
  | .connected, _ => .receiving
  | .disconnected, _ => .ended
  | .shutdown, isAdmin => if isAdmin then .cancelling else .receiving

structure Conversation where
  pc : ConversationPc
  name : Option Bytes
  msgBuffer : Bytes
  msgCount : Int
  /-- What was received and taken for a message so far. -/
  chunks : List Chunk
  heard : List Bytes

def Conversation.start (msgBuffer : Bytes) : Conversation := ⟨.created, none, msgBuffer, 0, [], []⟩

/-- The outcomes of `recv`. -/
inductive Received where
  | error
  | closed
  | chunk (chunk : Chunk)

namespace Conversation

/-- Where the branches on the message count lead. -/
def branch (msgCount : Int) (s : Bytes) : ConversationPc :=
  if msgCount > 1 then .receiving
  else if msgCount = 1 then .locking .connected
  else if s ≠ SHUTDOWN then .locking .shutdown
  else .receiving

/-- Up to the next access to shared data. -/
def recv (c : Conversation) : Received → Option Conversation
  | .error => some { c with pc := .ended }
  | .closed => some { c with pc := .locking .disconnected }
  | .chunk chunk => do
    let msgBuffer := receive c.msgBuffer chunk
    let msgCount ← intAdd? c.msgCount 1
    let s ← cString? msgBuffer
    return { pc := branch msgCount s
             name := if msgCount = 1 then some s else c.name
             msgBuffer := msgBuffer
             msgCount := msgCount
             chunks := c.chunks ++ [chunk]
             heard := c.heard ++ [s] }

end Conversation

structure System where
  /-- The owner of `conf_mutex`. -/
  mutex : Option Thread
  connectedClients : Int
  listener : ListenerPc
  /-- `pthread_cancel` was called. -/
  cancelled : Bool
  /-- How many conversations `conversation_init` made. -/
  created : Nat
  conversations : Nat → Conversation

inductive Event where
  | listener
  | accept (accepted : Bool)
  /-- The listener is cancelled in `accept`. -/
  | cancel
  /-- `pthread_create`. -/
  | create (created : Bool)
  | recv (i : Nat) (r : Received)
  | conversation (i : Nat)

namespace System

/-- The buffers are never initialised. -/
def start (msgBuffers : Nat → Bytes) : System :=
  ⟨none, 0, .locking, false, 0, fun i => .start (msgBuffers i)⟩

def set (σ : System) (i : Nat) (c : Conversation) : System :=
  { σ with conversations := Function.update σ.conversations i c }

def go (σ : System) (i : Nat) (pc : ConversationPc) : System :=
  σ.set i { σ.conversations i with pc := pc }

def listenerStep (σ : System) : Option System :=
  match σ.listener with
  | .locking =>
    if σ.mutex = none then some { σ with mutex := some .listener, listener := .accepting } else none
  | .unlocking accepted =>
    some { σ with mutex := none, listener := if accepted then .initLocking else .ended }
  | .initLocking =>
    if σ.mutex = none then some { σ with mutex := some .listener, listener := .counting } else none
  | .counting =>
    (intAdd? σ.connectedClients 1).map fun n =>
      { σ with connectedClients := n, created := σ.created + 1, listener := .initUnlocking }
  | .initUnlocking => some { σ with mutex := none, listener := .creating }
  | _ => none

/-- The steps of a conversation outside of `recv`. -/
def conversationStep (config : Config) (σ : System) (i : Nat) : Option System :=
  let c := σ.conversations i
  match c.pc with
  | .locking l =>
    if σ.mutex = none then some { σ.go i (.comparing l) with mutex := some (.conversation i) } else none
  | .comparing l =>
    -- Before its first message the client has no name to compare.
    c.name.bind fun name => (config.serverUserIsAdmin? name).map fun isAdmin =>
      if isAdmin then σ.go i (l.return true) else σ.go i (.unlocking l)
  | .unlocking l => some { σ.go i (l.return false) with mutex := none }
  | .cancelling => some { σ.go i .waiting with cancelled := true }
  | .waiting =>
    if σ.mutex = none then some { σ.go i .printing with mutex := some (.conversation i) } else none
  | .printing => some { σ.go i .receiving with mutex := none }
  | _ => none

def step (config : Config) (σ : System) : Event → Option System
  | .listener => σ.listenerStep
  | .accept accepted =>
    if σ.listener = .accepting then some { σ with listener := .unlocking accepted } else none
  | .cancel =>
    if σ.listener = .accepting ∧ σ.cancelled then some { σ with listener := .ended } else none
  | .create created =>
    if σ.listener = .creating then
      let σ' := { σ with listener := .locking }
      some (if created then σ'.go (σ.created - 1) .receiving else σ')
    else none
  | .recv i r =>
    if (σ.conversations i).pc = .receiving then ((σ.conversations i).recv r).map (σ.set i) else none
  | .conversation i => σ.conversationStep config i

/-! ### The outcomes of the steps -/

inductive ListenerStep (σ : System) : System → Prop
  | lock (hpc : σ.listener = .locking) (hfree : σ.mutex = none) :
    ListenerStep σ { σ with mutex := some .listener, listener := .accepting }
  | unlock {accepted : Bool} (hpc : σ.listener = .unlocking accepted) :
    ListenerStep σ { σ with mutex := none, listener := if accepted then .initLocking else .ended }
  | initLock (hpc : σ.listener = .initLocking) (hfree : σ.mutex = none) :
    ListenerStep σ { σ with mutex := some .listener, listener := .counting }
  | count {n : Int} (hpc : σ.listener = .counting) (hadd : intAdd? σ.connectedClients 1 = some n) :
    ListenerStep σ { σ with connectedClients := n, created := σ.created + 1, listener := .initUnlocking }
  | initUnlock (hpc : σ.listener = .initUnlocking) :
    ListenerStep σ { σ with mutex := none, listener := .creating }
  | accept {accepted : Bool} (hpc : σ.listener = .accepting) :
    ListenerStep σ { σ with listener := .unlocking accepted }
  | cancel (hpc : σ.listener = .accepting) (hcancelled : σ.cancelled = true) :
    ListenerStep σ { σ with listener := .ended }
  | create (hpc : σ.listener = .creating) :
    ListenerStep σ ({ σ with listener := .locking }.go (σ.created - 1) .receiving)
  | createFails (hpc : σ.listener = .creating) : ListenerStep σ { σ with listener := .locking }

inductive ConversationStep (config : Config) (σ : System) (i : Nat) : System → Prop
  | recv {r : Received} {c : Conversation} (hpc : (σ.conversations i).pc = .receiving)
      (hc : (σ.conversations i).recv r = some c) : ConversationStep config σ i (σ.set i c)
  | lock {l : Lookup} (hpc : (σ.conversations i).pc = .locking l) (hfree : σ.mutex = none) :
    ConversationStep config σ i { σ.go i (.comparing l) with mutex := some (.conversation i) }
  | admin {l : Lookup} {name : Bytes} (hpc : (σ.conversations i).pc = .comparing l)
      (hname : (σ.conversations i).name = some name)
      (hadmin : config.serverUserIsAdmin? name = some true) :
    ConversationStep config σ i (σ.go i (l.return true))
  | notAdmin {l : Lookup} {name : Bytes} (hpc : (σ.conversations i).pc = .comparing l)
      (hname : (σ.conversations i).name = some name)
      (hadmin : config.serverUserIsAdmin? name = some false) :
    ConversationStep config σ i (σ.go i (.unlocking l))
  | unlock {l : Lookup} (hpc : (σ.conversations i).pc = .unlocking l) :
    ConversationStep config σ i { σ.go i (l.return false) with mutex := none }
  | cancel (hpc : (σ.conversations i).pc = .cancelling) :
    ConversationStep config σ i { σ.go i .waiting with cancelled := true }
  | wait (hpc : (σ.conversations i).pc = .waiting) (hfree : σ.mutex = none) :
    ConversationStep config σ i { σ.go i .printing with mutex := some (.conversation i) }
  | print (hpc : (σ.conversations i).pc = .printing) :
    ConversationStep config σ i { σ.go i .receiving with mutex := none }

variable {config : Config} {σ σ' : System} {i : Nat}

theorem listenerStep_cases (h : σ.listenerStep = some σ') : ListenerStep σ σ' := by
  unfold listenerStep at h
  split at h
  case h_1 hpc =>
    split_ifs at h with hfree
    cases h
    exact .lock hpc hfree
  case h_2 accepted hpc => cases h; exact .unlock hpc
  case h_3 hpc =>
    split_ifs at h with hfree
    cases h
    exact .initLock hpc hfree
  case h_4 hpc =>
    obtain ⟨n, hadd, rfl⟩ := Option.map_eq_some_iff.mp h
    exact .count hpc hadd
  case h_5 hpc => cases h; exact .initUnlock hpc
  case h_6 => cases h

theorem conversationStep_cases (h : σ.conversationStep config i = some σ') :
    ConversationStep config σ i σ' := by
  unfold conversationStep at h
  simp only at h
  split at h
  case h_1 l hpc =>
    split_ifs at h with hfree
    cases h
    exact .lock hpc hfree
  case h_2 l hpc =>
    obtain ⟨name, hname, h⟩ := Option.bind_eq_some_iff.mp h
    obtain ⟨isAdmin, hadmin, rfl⟩ := Option.map_eq_some_iff.mp h
    cases isAdmin with
    | true => exact .admin hpc hname hadmin
    | false => exact .notAdmin hpc hname hadmin
  case h_3 l hpc => cases h; exact .unlock hpc
  case h_4 hpc => cases h; exact .cancel hpc
  case h_5 hpc =>
    split_ifs at h with hfree
    cases h
    exact .wait hpc hfree
  case h_6 hpc => cases h; exact .print hpc
  case h_7 => cases h

/-- The conversation that an event is a step of. -/
theorem step_cases {e : Event} (h : σ.step config e = some σ') :
    ListenerStep σ σ' ∨ ∃ i, (e = .conversation i ∨ ∃ r, e = .recv i r) ∧ ConversationStep config σ i σ' := by
  cases e with
  | listener => exact Or.inl (listenerStep_cases h)
  | accept accepted =>
    simp only [step] at h
    split_ifs at h with hpc
    cases h
    exact Or.inl (.accept hpc)
  | cancel =>
    simp only [step] at h
    split_ifs at h with hpc
    cases h
    exact Or.inl (.cancel hpc.1 hpc.2)
  | create created =>
    simp only [step] at h
    split_ifs at h with hpc hcreated
    · cases h
      exact Or.inl (.create hpc)
    · cases h
      exact Or.inl (.createFails hpc)
  | recv i r =>
    simp only [step] at h
    split_ifs at h with hpc
    obtain ⟨c, hc, rfl⟩ := Option.map_eq_some_iff.mp h
    exact Or.inr ⟨i, Or.inr ⟨r, rfl⟩, .recv hpc hc⟩
  | conversation i => exact Or.inr ⟨i, Or.inl rfl, conversationStep_cases h⟩

end System
end OsExercises.Chat
