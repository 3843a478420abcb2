import Mathlib.Order.PropInstances
import OsExercises.Chat.Invariant

/-!
# The server and its clients

What the server makes of the messages (`run_heard`), of `/shutdown`, of the number of its clients and of
its mutex, over all runs.
-/

namespace OsExercises.Chat

open Transition

variable {config : Config} {msgBuffers : Nat → Bytes} {σ σ' : System} {events : List Event}

theorem inv_of_run (h : run (System.step config) (System.start msgBuffers) events = some σ) :
    System.Inv msgBuffers σ :=
  run_inv (fun _ _ _ hinv hs => hinv.step hs) System.Inv.start h

/-- The conversations take for messages what `handled` says. -/
theorem run_heard (h : run (System.step config) (System.start msgBuffers) events = some σ) (i : Nat) :
    handled (msgBuffers i) (σ.conversations i).chunks = some (σ.conversations i).heard ∧
      (σ.conversations i).name = (σ.conversations i).heard.head? :=
  ⟨((inv_of_run h).conversation i).heard, ((inv_of_run h).conversation i).name⟩

/-! ### `/shutdown` -/

/-- One message was received at a time. -/
def Sent (messages : List Message) (c : Conversation) : Prop :=
  c.chunks.map Chunk.bytes = messages.map fun m => m.bytes ++ [newline]

/-- An admin has sent `/shutdown`. -/
def Asks (config : Config) (c : Conversation) : Prop :=
  ∃ name later, Sent (name :: later) c ∧ name.bytes ∈ config.given ∧ ∃ m ∈ later, m.bytes = SHUTDOWN

def Obeys (config : Config) (σ : System) : Prop :=
  σ.cancelled = true ↔ ∃ i, Asks config (σ.conversations i)

theorem obeys_iff (config : Config) (msgBuffers : Nat → Bytes) (events : List Event) (σ : System)
    (h : run (System.step config) (System.start msgBuffers) events = some σ) :
    Obeys config σ ↔ ∀ i, ¬ Asks config (σ.conversations i) := by
  rw [Obeys, (inv_of_run h).cancelled, ← not_exists]
  constructor
  · intro hobeys hasks
    cases hobeys.mpr hasks
  · intro hnone
    exact iff_of_false Bool.false_ne_true hnone

def configOfTwo (a b : Bytes) : Config where
  given := [a, b]
  admins := [a, b, [], [], []]
  given_ne_nil := List.cons_ne_nil _ _
  given_admins := ⟨[[], [], []], rfl⟩
  length_admins := rfl

/-- The admins `"a"` and `"b"`. -/
def pairOfAdmins : Config := configOfTwo [97] [98]

/-- The buffers hold zeros in the beginning. -/
def zeros (_ : Nat) : Bytes := List.replicate BUF_SIZE NUL

/-- A client connects. -/
def connect : List Event :=
  [.listener, .accept true, .listener, .listener, .listener, .listener, .create true]

/-- An admin connects, gives its name and asks for the shutdown. -/
def askShutdown : List Event :=
  connect ++ [.recv 0 (.chunk ⟨[97] ++ [newline], List.cons_ne_nil _ _, Nat.le_of_ble_eq_true rfl⟩),
    .conversation 0, .conversation 0,
    .recv 0 (.chunk ⟨SHUTDOWN ++ [newline], List.cons_ne_nil _ _, Nat.le_of_ble_eq_true rfl⟩)]

theorem run_askShutdown : (run (System.step pairOfAdmins) (System.start zeros) askShutdown).map
    (fun σ => (σ.conversations 0).chunks.map Chunk.bytes) =
      some [[97] ++ [newline], SHUTDOWN ++ [newline]] := by decide +kernel

theorem obeys_iff_askShutdown : ∃ σ,
    run (System.step pairOfAdmins) (System.start zeros) askShutdown = some σ ∧
      (Obeys pairOfAdmins σ ↔ ∀ i, ¬ Asks pairOfAdmins (σ.conversations i)) := by
  obtain ⟨σ, hrun, -⟩ := Option.map_eq_some_iff.mp run_askShutdown
  exact ⟨σ, hrun, obeys_iff pairOfAdmins zeros askShutdown σ hrun⟩

theorem not_obeys : ¬ ∀ (config : Config) (msgBuffers : Nat → Bytes) (events : List Event) (σ : System),
    run (System.step config) (System.start msgBuffers) events = some σ → Obeys config σ := by
  intro h
  obtain ⟨σ, hrun, hchunks⟩ := Option.map_eq_some_iff.mp run_askShutdown
  have hasks : Asks pairOfAdmins (σ.conversations 0) :=
    ⟨⟨[97], by decide⟩, [⟨SHUTDOWN, by decide⟩], hchunks, List.mem_cons_self, _,
      List.mem_singleton_self _, rfl⟩
  have hcancelled := (h pairOfAdmins zeros askShutdown σ hrun).mpr ⟨0, hasks⟩
  cases (inv_of_run hrun).cancelled.symm.trans hcancelled

/-! ### The number of clients -/

def System.live (σ : System) : Nat :=
  (List.range σ.created).countP fun i => (σ.conversations i).pc ≠ .ended

theorem connectedClients_iff (config : Config) (msgBuffers : Nat → Bytes) (events : List Event)
    (σ : System) (h : run (System.step config) (System.start msgBuffers) events = some σ) :
    σ.connectedClients = σ.live ↔ ∀ i < σ.created, (σ.conversations i).pc ≠ .ended := by
  have hall : σ.live = σ.created ↔ ∀ i < σ.created, (σ.conversations i).pc ≠ .ended := by
    have hlength := List.countP_eq_length (l := List.range σ.created)
      (p := fun i => (σ.conversations i).pc ≠ .ended)
    rw [List.length_range] at hlength
    rw [System.live, hlength]
    simp
  rw [← hall, (inv_of_run h).connectedClients]
  exact ⟨fun heq => (Int.ofNat_inj.mp heq).symm, fun heq => congrArg _ heq.symm⟩

theorem connectedClients_iff_connect : ∃ σ,
    run (System.step pairOfAdmins) (System.start zeros) connect = some σ ∧
      (σ.connectedClients = σ.live ↔ ∀ i < σ.created, (σ.conversations i).pc ≠ .ended) :=
  ⟨_, rfl, connectedClients_iff pairOfAdmins zeros connect _ rfl⟩

/-- After a `recv` error the client is still counted. -/
theorem not_connectedClients : ¬ ∀ (config : Config) (msgBuffers : Nat → Bytes) (events : List Event)
    (σ : System), run (System.step config) (System.start msgBuffers) events = some σ →
      σ.mutex = none → σ.connectedClients = σ.live := by
  intro h
  have hrun : (run (System.step pairOfAdmins) (System.start zeros) (connect ++ [.recv 0 .error])).map
      (fun σ => (σ.mutex, σ.connectedClients, σ.live)) = some (none, 1, 0) := rfl
  obtain ⟨σ, hrun, heq⟩ := Option.map_eq_some_iff.mp hrun
  simp only [Prod.mk.injEq] at heq
  obtain ⟨hmutex, hclients, hlive⟩ := heq
  have hcount := h pairOfAdmins zeros _ σ hrun hmutex
  rw [hclients, hlive] at hcount
  cases hcount

/-! ### The mutex at rest -/

/-- Every thread waits in `accept` or `recv` or has ended. -/
def AtRest (σ : System) : Prop :=
  (σ.listener = .accepting ∨ σ.listener = .ended) ∧
    ∀ i, (σ.conversations i).pc = .created ∨ (σ.conversations i).pc = .receiving ∨
      (σ.conversations i).pc = .ended

/-- A name is looked up that differs from one of the entries. -/
def Keeps (config : Config) (σ : System) (e : Event) : Prop :=
  ∃ i l name, e = .conversation i ∧ (σ.conversations i).pc = .comparing l ∧
    (σ.conversations i).name = some name ∧ ∃ admin ∈ config.admins, admin ≠ name

theorem serverUserIsAdmin_iff {name : Bytes} {admins : List Bytes} :
    serverUserIsAdmin name admins = true ↔ ∃ admin ∈ admins, admin ≠ name := by
  induction admins with
  | nil => simp [serverUserIsAdmin]
  | cons admin admins ih =>
    rw [serverUserIsAdmin, List.exists_mem_cons_iff, ← ih]
    split_ifs with hne
    · exact iff_of_true rfl (Or.inl hne)
    · exact (or_iff_right hne).symm

/-- A thread has the mutex outside of its critical section. -/
def Leaked (σ : System) : Prop := ∃ t, σ.mutex = some t ∧ σ.holds t = false

theorem leaked_congr (hmutex : σ'.mutex = σ.mutex) (hholds : ∀ t, σ'.holds t = σ.holds t) :
    Leaked σ' ↔ Leaked σ := by
  refine exists_congr fun t => ?_
  rw [hmutex, hholds]

theorem not_leaked_of_none (hmutex : σ.mutex = none) : ¬ Leaked σ := by
  rintro ⟨t, ht, -⟩
  cases hmutex.symm.trans ht

theorem not_leaked_of_holds {t : Thread} (hmutex : σ.mutex = some t) (ht : σ.holds t = true) :
    ¬ Leaked σ := by
  rintro ⟨u, hu, hfree⟩
  obtain rfl := Option.some.inj (hmutex.symm.trans hu)
  cases ht.symm.trans hfree

namespace System

theorem pc_of_recv {i : Nat} {r : Received} (hs : σ.step config (.recv i r) = some σ') :
    (σ.conversations i).pc = .receiving := by
  simp only [step] at hs
  split_ifs at hs with hpc
  exact hpc

theorem Inv.leaked_listenerStep (h : Inv msgBuffers σ) (hs : ListenerStep σ σ') :
    Leaked σ' ↔ Leaked σ := by
  cases hs with
  | lock hpc hfree => exact iff_of_false (not_leaked_of_holds rfl rfl) (not_leaked_of_none hfree)
  | unlock hpc =>
    have hheld : σ.holds .listener = true := by rw [holds, hpc]; rfl
    exact iff_of_false (not_leaked_of_none rfl) (not_leaked_of_holds (h.mutex _ hheld) hheld)
  | initLock hpc hfree => exact iff_of_false (not_leaked_of_holds rfl rfl) (not_leaked_of_none hfree)
  | count hpc => exact leaked_congr rfl fun t => by cases t with
    | listener => rw [holds, holds, hpc]; rfl
    | conversation => rfl
  | initUnlock hpc =>
    have hheld : σ.holds .listener = true := by rw [holds, hpc]; rfl
    exact iff_of_false (not_leaked_of_none rfl) (not_leaked_of_holds (h.mutex _ hheld) hheld)
  | accept hpc => exact leaked_congr rfl fun t => by cases t with
    | listener => rw [holds, holds, hpc]; rfl
    | conversation => rfl
  | cancel hpc hcancelled => cases h.cancelled.symm.trans hcancelled
  | create hpc =>
    refine leaked_congr rfl fun t => ?_
    by_cases ht : t = .conversation (σ.created - 1)
    · have hmade := (h.made (by rw [hpc]; rfl)).2
      rw [ht, System.go, holds_set_self, holds, hmade]
      rfl
    · rw [System.go, holds_set_of_ne ht]
      cases t with
      | listener => rw [holds, holds, hpc]; rfl
      | conversation => rfl
  | createFails hpc => exact leaked_congr rfl fun t => by cases t with
    | listener => rw [holds, holds, hpc]; rfl
    | conversation => rfl

theorem Inv.leaked_step {e : Event} (h : Inv msgBuffers σ) (hkeeps : ¬ Keeps config σ e)
    (hs : σ.step config e = some σ') : Leaked σ' ↔ Leaked σ := by
  rcases step_cases hs with hlistener | ⟨i, he, hconversation⟩
  · exact h.leaked_listenerStep hlistener
  have moved : ∀ c : Conversation, c.pc.holds = (σ.conversations i).pc.holds →
      (Leaked (σ.set i c) ↔ Leaked σ) := by
    refine fun c hc => leaked_congr rfl fun t => ?_
    by_cases ht : t = .conversation i
    · rw [ht, holds_set_self, hc]
      rfl
    · exact holds_set_of_ne ht
  cases hconversation with
  | @recv r c hpc hc =>
    refine moved c ?_
    rw [Conversation.holds_recv hc, hpc]
    rfl
  | lock hpc hfree =>
    exact iff_of_false (not_leaked_of_holds rfl holds_set_self) (not_leaked_of_none hfree)
  | @admin l name hpc hname hadmin =>
    rcases he with rfl | ⟨r, rfl⟩
    · exact absurd ⟨i, l, name, rfl, hpc, hname,
        serverUserIsAdmin_iff.mp (config.serverUserIsAdmin_of_eq_some hadmin)⟩ hkeeps
    · cases hpc.symm.trans (pc_of_recv hs)
  | notAdmin hpc =>
    refine moved _ ?_
    rw [hpc]
    rfl
  | unlock hpc =>
    have hheld : σ.holds (.conversation i) = true := by rw [holds, hpc]; rfl
    exact iff_of_false (not_leaked_of_none rfl) (not_leaked_of_holds (h.mutex _ hheld) hheld)
  | cancel hpc => cases h.shutsDown hpc
  | wait hpc => cases h.shutsDown hpc
  | print hpc => cases h.shutsDown hpc

theorem Inv.leaked_lt {e : Event} (h : Inv msgBuffers σ) (hkeeps : Keeps config σ e)
    (hs : σ.step config e = some σ') : Leaked σ < Leaked σ' := by
  obtain ⟨i, l, name, rfl, hpc, hname, hadmin⟩ := hkeeps
  have hadmin := serverUserIsAdmin_iff.mpr hadmin
  have hheld : σ.holds (.conversation i) = true := by rw [holds, hpc]; rfl
  have hmutex := h.mutex _ hheld
  have hσ' : σ' = σ.go i (l.return true) := by
    simp only [System.step, System.conversationStep, hpc, hname, Option.bind_some] at hs
    obtain ⟨isAdmin, hfound, rfl⟩ := Option.map_eq_some_iff.mp hs
    rw [← config.serverUserIsAdmin_of_eq_some hfound, hadmin, if_pos rfl]
  have hleaked : Leaked σ' := by
    refine ⟨.conversation i, ?_, ?_⟩
    · rw [hσ']
      exact hmutex
    · rw [hσ', System.go, holds_set_self, Lookup.holds_return]
  have hnot := not_leaked_of_holds hmutex hheld
  exact lt_iff_le_not_ge.mpr ⟨fun hbefore => absurd hbefore hnot, fun hle => hnot (hle hleaked)⟩

end System

theorem mutex_at_rest_iff (config : Config) (msgBuffers : Nat → Bytes) (events : List Event)
    (σ : System) (h : run (System.step config) (System.start msgBuffers) events = some σ)
    (hrest : AtRest σ) :
    σ.mutex = none ↔ σ.listener = .ended ∧
      Meets (System.step config) (fun σ e => ¬ Keeps config σ e) (System.start msgBuffers) events := by
  have hinv := inv_of_run h
  have hmeets : Leaked σ = Leaked (System.start msgBuffers) ↔ _ :=
    meter_eq_iff_meets (I := System.Inv msgBuffers) (fun _ _ _ hinv hs => hinv.step hs)
      (fun _ _ _ hinv hkeeps hs => propext (hinv.leaked_step hkeeps hs))
      (fun _ _ _ hinv hkeeps hs => hinv.leaked_lt (not_not.mp hkeeps) hs) System.Inv.start h
  have hstart : ¬ Leaked (System.start msgBuffers) := not_leaked_of_none rfl
  rw [← hmeets, eq_false hstart, eq_iff_iff, iff_false]
  constructor
  · intro hmutex
    refine ⟨?_, not_leaked_of_none hmutex⟩
    rcases hrest.1 with hpc | hpc
    · have hheld := hinv.mutex .listener (by rw [System.holds, hpc]; rfl)
      cases hmutex.symm.trans hheld
    · exact hpc
  · rintro ⟨hpc, hleaked⟩
    by_contra hmutex
    obtain ⟨t, ht⟩ := Option.ne_none_iff_exists'.mp hmutex
    refine hleaked ⟨t, ht, ?_⟩
    cases t with
    | listener => rw [System.holds, hpc]; rfl
    | conversation i => rcases hrest.2 i with hi | hi | hi <;> (rw [System.holds, hi]; rfl)

/-- The first client is in `recv` when `accept` fails. -/
def acceptFails : List Event := connect ++ [.listener, .accept false, .listener]

theorem mutex_at_rest_iff_accept_fails : ∃ σ,
    run (System.step pairOfAdmins) (System.start zeros) acceptFails = some σ ∧
      (σ.conversations 0).pc = .receiving ∧
      (σ.mutex = none ↔ σ.listener = .ended ∧ Meets (System.step pairOfAdmins)
        (fun σ e => ¬ Keeps pairOfAdmins σ e) (System.start zeros) acceptFails) := by
  have hrun : (run (System.step pairOfAdmins) (System.start zeros) acceptFails).map
      (fun σ => (σ.listener, σ.created, (σ.conversations 0).pc)) = some (.ended, 1, .receiving) := rfl
  obtain ⟨σ, hrun, heq⟩ := Option.map_eq_some_iff.mp hrun
  simp only [Prod.mk.injEq] at heq
  obtain ⟨hlistener, hcreated, hreceiving⟩ := heq
  refine ⟨σ, hrun, hreceiving, mutex_at_rest_iff pairOfAdmins zeros _ σ hrun ⟨Or.inr hlistener, fun i => ?_⟩⟩
  cases i with
  | zero => exact Or.inr (Or.inl hreceiving)
  | succ i => exact Or.inl ((inv_of_run hrun).fresh (i + 1) (hcreated ▸ Nat.le_add_left 1 i))

/-- The listener waits for the first client. -/
theorem not_mutex_at_rest : ¬ ∀ (config : Config) (msgBuffers : Nat → Bytes) (events : List Event)
    (σ : System), run (System.step config) (System.start msgBuffers) events = some σ → AtRest σ →
      σ.mutex = none := by
  intro h
  have hrun : run (System.step pairOfAdmins) (System.start zeros) [.listener] =
      some ⟨some .listener, 0, .accepting, false, 0, fun i => .start (zeros i)⟩ := rfl
  cases h pairOfAdmins zeros _ _ hrun ⟨Or.inl rfl, fun _ => Or.inl rfl⟩

end OsExercises.Chat
