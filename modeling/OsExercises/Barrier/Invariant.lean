import OsExercises.Barrier.Model
import OsExercises.Lib.Mutex

/-!
# The invariant of the barrier

`Inv count σ`: `waiting_threads` counts the calls of the current generation, of which there are
fewer than `count`; a thread that sleeps is one of them; a thread that has been let go belongs to a
completed generation, and what it returns is decided by its position there (`Returns`). Every step
keeps it (`Inv.step`), provided no thread that has been let go mistakes the current generation for
its own (`NotMistaken`), as it could once the `int` has wrapped around.
-/

namespace OsExercises.Barrier

variable {T : Type*}

/-- The thread has `barrier_mutex`. -/
def Pc.holds : Pc → Bool
  | .entered | .testing _ | .unlocking _ => true
  | _ => false

theorem Pc.holds_broadcast (p : Pc) : p.broadcast.holds = p.holds := by cases p <;> rfl

namespace History

variable (H : History T)

/-- The calls counted so far. -/
def log : List (CallId T) := H.rounds.flatten ++ H.current

/-- What a call of a completed generation returns: the last to arrive is the serial thread. -/
def Returns (c : CallId T) (r : Int) : Prop := ∃ round ∈ H.rounds,
  r = MY_PTHREAD_BARRIER_SERIAL_THREAD ∧ round.head? = some c ∨ r = 0 ∧ c ∈ round.tail

/-- The call of `t` is counted in the current generation. -/
def Waiting (t : T) : Prop := H.arrivedIn t = H.rounds.length ∧ H.callOf t ∈ H.current

/-- The generation of the call of `t` is complete. -/
def Released (t : T) : Prop := H.arrivedIn t < H.rounds.length ∧ H.Returns (H.callOf t) 0

/-- What is known of a thread at each place. -/
def Place (t : T) : Pc → Prop
  | .outside => H.callOf t ∉ H.current
  | .locking | .entered => H.callOf t ∉ H.log
  | .testing g | .woken g => g = toInt (H.arrivedIn t) ∧ (H.Waiting t ∨ H.Released t)
  | .sleeping g => g = toInt (H.arrivedIn t) ∧ H.Waiting t
  | .unlocking r => H.Returns (H.callOf t) r

/-- Each call is counted at most once, completed generations have `count` calls. -/
structure Ok (count : Nat) : Prop where
  current : ∀ t k, (t, k) ∈ H.current → k = H.calls t
  log_le : ∀ t k, (t, k) ∈ H.log → k ≤ H.calls t
  nodup : H.log.Nodup
  rounds : ∀ round ∈ H.rounds, round.length = count
  results : ∀ c r, (c, r) ∈ H.results → H.Returns c r

variable {H} {H' : History T} {t u : T} {p : Pc} {count : Nat} {c : CallId T} {r : Int}

theorem Returns.mono (h : H.Returns c r) (hrounds : H.rounds ⊆ H'.rounds) : H'.Returns c r :=
  let ⟨round, hround, hr⟩ := h
  ⟨round, hrounds hround, hr⟩

theorem Returns.mem_flatten (h : H.Returns c r) : c ∈ H.rounds.flatten := by
  obtain ⟨round, hround, hr⟩ := h
  refine List.mem_flatten.mpr ⟨round, hround, ?_⟩
  rcases hr with ⟨-, hhead⟩ | ⟨-, htail⟩
  · exact List.mem_of_mem_head? hhead
  · exact List.mem_of_mem_tail htail

theorem Ok.notMem_current (h : H.Ok count) (hc : c ∈ H.rounds.flatten) : c ∉ H.current :=
  fun hc' => (List.nodup_append.mp h.nodup).2.2 c hc c hc' rfl

theorem Place.congr (h : H.Place u p) (hcall : H'.callOf u = H.callOf u)
    (harrived : H'.arrivedIn u = H.arrivedIn u) (hrounds : H'.rounds = H.rounds)
    (hcurrent : H.callOf u ∈ H'.current ↔ H.callOf u ∈ H.current) : H'.Place u p := by
  have hlog : H.callOf u ∈ H'.log ↔ H.callOf u ∈ H.log := by
    simp only [log, List.mem_append, hrounds, hcurrent]
  cases p <;>
    simpa only [Place, Waiting, Released, Returns, hcall, harrived, hrounds, hcurrent, hlog] using h

variable [DecidableEq T]

/-! ### A call -/

theorem callOf_called (hut : u ≠ t) : (H.called t).callOf u = H.callOf u := by
  simp only [callOf, called, Function.update_of_ne hut]

theorem calls_le_called (u : T) : H.calls u ≤ (H.called t).calls u := by
  by_cases hut : u = t
  · subst hut
    simp only [called, Function.update_self]
    omega
  · simp only [called, Function.update_of_ne hut, Nat.le_refl]

theorem Ok.called (h : H.Ok count) (ht : H.callOf t ∉ H.current) : (H.called t).Ok count := by
  refine ⟨fun u k hk => ?_, fun u k hk => (h.log_le u k hk).trans (calls_le_called u), h.nodup, h.rounds,
    h.results⟩
  have hku := h.current u k hk
  by_cases hut : u = t
  · subst hut hku
    exact absurd hk ht
  · rw [hku]
    exact (congrArg Prod.snd (callOf_called hut)).symm

theorem Ok.place_called (h : H.Ok count) : (H.called t).Place t .locking := by
  intro hlog
  have hle : (H.called t).calls t ≤ H.calls t := h.log_le t _ hlog
  have hcalls : (H.called t).calls t = H.calls t + 1 := Function.update_self ..
  omega

theorem Place.called (h : H.Place u p) (hut : u ≠ t) : (H.called t).Place u p :=
  h.congr (callOf_called hut) rfl rfl Iff.rfl

/-! ### An arrival that is not the last -/

theorem Ok.counted (h : H.Ok count) (ht : H.callOf t ∉ H.log) : (H.counted t).Ok count := by
  have hlog : ∀ c, c ∈ (H.counted t).log ↔ c = H.callOf t ∨ c ∈ H.log := by
    intro c
    simp only [log, History.counted, List.mem_append, List.mem_cons]
    tauto
  refine ⟨?_, ?_, ?_, h.rounds, h.results⟩
  · intro u k hk
    rcases List.mem_cons.mp hk with heq | hk
    · cases heq
      rfl
    · exact h.current u k hk
  · intro u k hk
    rcases (hlog _).mp hk with heq | hk
    · cases heq
      exact Nat.le_refl _
    · exact h.log_le u k hk
  · exact List.perm_middle.nodup_iff.mpr (List.nodup_cons.mpr ⟨ht, h.nodup⟩)

theorem place_counted : (H.counted t).Place t (.testing (toInt H.rounds.length)) := by
  have harrived : (H.counted t).arrivedIn t = H.rounds.length := Function.update_self ..
  exact ⟨by rw [harrived], .inl ⟨harrived, List.mem_cons_self⟩⟩

theorem Place.counted (h : H.Place u p) (hut : u ≠ t) : (H.counted t).Place u p := by
  refine h.congr rfl (Function.update_of_ne hut ..) rfl ?_
  have hne : H.callOf u ≠ H.callOf t := fun heq => hut (congrArg Prod.fst heq)
  simp only [History.counted, List.mem_cons, hne, false_or]

/-! ### The last arrival -/

theorem Ok.completed (h : H.Ok count) (ht : H.callOf t ∉ H.log) (hlen : H.current.length + 1 = count) :
    (H.completed t).Ok count := by
  have hperm : (H.completed t).log.Perm (H.callOf t :: H.log) := by
    simp only [log, History.completed, List.flatten_cons, List.append_nil, List.cons_append]
    exact List.Perm.cons _ List.perm_append_comm
  refine ⟨by simp [History.completed], ?_, ?_, ?_, fun c r hc => ?_⟩
  · intro u k hk
    rcases List.mem_cons.mp (hperm.mem_iff.mp hk) with heq | hk
    · cases heq
      exact Nat.le_refl _
    · exact h.log_le u k hk
  · exact hperm.nodup_iff.mpr (List.nodup_cons.mpr ⟨ht, h.nodup⟩)
  · intro round hround
    rcases List.mem_cons.mp hround with rfl | hround
    · rw [List.length_cons, hlen]
    · exact h.rounds round hround
  · exact (h.results c r hc).mono (List.subset_cons_self _ _)

theorem place_completed : (H.completed t).Place t (.unlocking MY_PTHREAD_BARRIER_SERIAL_THREAD) :=
  ⟨_, List.mem_cons_self, .inl ⟨rfl, rfl⟩⟩

/-- The broadcast wakes the sleepers of the generation that is now complete. -/
theorem Place.completed (h : H.Place u p) (hut : u ≠ t) : (H.completed t).Place u p.broadcast := by
  have harrived : (H.completed t).arrivedIn u = H.arrivedIn u := Function.update_of_ne hut ..
  have hlen : (H.completed t).rounds.length = H.rounds.length + 1 := rfl
  have hsub : H.rounds ⊆ (H.completed t).rounds := List.subset_cons_self _ _
  have hwaiting : H.Waiting u → (H.completed t).Released u := by
    rintro ⟨hin, hmem⟩
    exact ⟨by rw [harrived, hin, hlen]; exact Nat.lt_succ_self _,
      _, List.mem_cons_self, .inr ⟨rfl, hmem⟩⟩
  have hreleased : H.Released u → (H.completed t).Released u := by
    rintro ⟨hin, hret⟩
    exact ⟨by rw [harrived, hlen]; omega, hret.mono hsub⟩
  have hlog : H.callOf u ∉ H.log → (H.completed t).callOf u ∉ (H.completed t).log := by
    intro hnot hmem
    have hne : H.callOf u ≠ H.callOf t := fun heq => hut (congrArg Prod.fst heq)
    simp only [log, History.completed, List.flatten_cons, List.append_nil, List.mem_append,
      List.mem_cons] at hmem hnot
    rcases hmem with (heq | hmem) | hmem
    · exact hne heq
    · exact hnot (.inr hmem)
    · exact hnot (.inl hmem)
  cases p with
  | outside => exact List.not_mem_nil
  | locking => exact hlog h
  | entered => exact hlog h
  | testing g => exact ⟨by rw [harrived]; exact h.1, .inr (h.2.elim hwaiting hreleased)⟩
  | sleeping g => exact ⟨by rw [harrived]; exact h.1, .inr (hwaiting h.2)⟩
  | woken g => exact ⟨by rw [harrived]; exact h.1, .inr (h.2.elim hwaiting hreleased)⟩
  | unlocking r => exact h.mono hsub

end History

/-! ### The system -/

structure Inv (count : Nat) (σ : System T) : Prop where
  count_le : (count : Int) ≤ INT_MAX
  maxThreads : σ.barrier.maxThreads = count
  waiting : σ.barrier.waitingThreads = σ.history.current.length
  waiting_lt : σ.history.current.length < count
  generation : σ.barrier.generation = toInt σ.history.rounds.length
  holder : Holder Pc.holds σ.mutex σ.pc
  place : ∀ t, σ.history.Place t (σ.pc t)
  history : σ.history.Ok count

/-- No thread that has been let go takes the current generation for its own. -/
def NotMistaken (σ : System T) : Prop :=
  ∀ t g, σ.pc t = .testing g → σ.history.Released t → g ≠ σ.barrier.generation

namespace Inv

variable {count : Nat} {σ σ' : System T} {t : T}

theorem start (h1 : 1 ≤ count) (hmax : (count : Int) ≤ INT_MAX) :
    Inv count (System.start (T := T) ⟨count, 0, 0⟩) := by
  refine ⟨hmax, rfl, rfl, h1, toInt_zero.symm, fun t => ?_, fun t => ?_, ⟨?_, ?_, ?_, ?_, ?_⟩⟩ <;>
    simp [System.start, Pc.holds, History.Place, History.log]

theorem waiting_succ (h : Inv count σ) :
    toInt (σ.barrier.waitingThreads + 1) = ((σ.history.current.length + 1 : Nat) : Int) := by
  have hmax := h.count_le
  have hlt := h.waiting_lt
  rw [h.waiting, toInt_of_mem]
  · push_cast; rfl
  · unfold INT_MIN; omega
  · omega

theorem stays (h : Inv count σ) {g : Int} (hgen : g = toInt (σ.history.arrivedIn t))
    (hwait : σ.history.Waiting t) :
    g = σ.barrier.generation ∧ σ.barrier.waitingThreads < σ.barrier.maxThreads := by
  rw [hgen, hwait.1, h.generation, h.waiting, h.maxThreads]
  exact ⟨rfl, Int.ofNat_lt.mpr h.waiting_lt⟩

/-- A thread whose call is counted in the current generation is in the loop. -/
theorem waiting_of_mem (h : Inv count σ) (hmem : σ.history.callOf t ∈ σ.history.current) :
    σ.history.Waiting t ∧ ∃ g, σ.pc t = .testing g ∨ σ.pc t = .sleeping g ∨ σ.pc t = .woken g := by
  have hlog : σ.history.callOf t ∈ σ.history.log := List.mem_append_right _ hmem
  have hplace := h.place t
  cases hpc : σ.pc t with
  | outside => rw [hpc] at hplace; exact absurd hmem hplace
  | locking => rw [hpc] at hplace; exact absurd hlog hplace
  | entered => rw [hpc] at hplace; exact absurd hlog hplace
  | testing g =>
    rw [hpc] at hplace
    rcases hplace.2 with hwait | hrel
    · exact ⟨hwait, g, .inl rfl⟩
    · exact absurd hmem (h.history.notMem_current hrel.2.mem_flatten)
  | sleeping g => rw [hpc] at hplace; exact ⟨hplace.2, g, .inr (.inl rfl)⟩
  | woken g =>
    rw [hpc] at hplace
    rcases hplace.2 with hwait | hrel
    · exact ⟨hwait, g, .inr (.inr rfl)⟩
    · exact absurd hmem (h.history.notMem_current hrel.2.mem_flatten)
  | unlocking r =>
    rw [hpc] at hplace
    exact absurd hmem (h.history.notMem_current hplace.mem_flatten)

variable [DecidableEq T]

theorem moved {mutex : Option T} {p : Pc} (h : Inv count σ) (ht : σ.history.Place t p)
    (hholder : Holder Pc.holds mutex (Function.update σ.pc t p)) :
    Inv count { σ with mutex := mutex, pc := Function.update σ.pc t p } :=
  ⟨h.count_le, h.maxThreads, h.waiting, h.waiting_lt, h.generation, hholder,
    (Function.forall_update_iff ..).mpr ⟨ht, fun u _ => h.place u⟩, h.history⟩

theorem call (h : Inv count σ) (hs : σ.call t = some σ') : Inv count σ' := by
  obtain ⟨hpc, rfl⟩ := System.call_cases hs
  have ht : σ.history.Place t .outside := hpc ▸ h.place t
  exact ⟨h.count_le, h.maxThreads, h.waiting, h.waiting_lt, h.generation,
    h.holder.move (by rw [hpc]; rfl),
    (Function.forall_update_iff ..).mpr ⟨h.history.place_called, fun u hut => (h.place u).called hut⟩,
    h.history.called ht⟩

theorem lock (h : Inv count σ) (hs : σ.lock t = some σ') : Inv count σ' := by
  obtain ⟨hpc, hmutex, rfl⟩ := System.lock_cases hs
  have ht : σ.history.Place t .locking := hpc ▸ h.place t
  have hholder := h.holder
  rw [hmutex] at hholder
  exact h.moved ht (hholder.acquire rfl)

theorem arrive (h : Inv count σ) (hs : σ.arrive t = some σ') : Inv count σ' := by
  obtain ⟨hpc, hcases⟩ := System.arrive_cases hs
  rw [h.waiting_succ, h.maxThreads] at hcases
  have ht : σ.history.Place t .entered := hpc ▸ h.place t
  have hlt := h.waiting_lt
  rcases hcases with ⟨hmore, rfl⟩ | ⟨hlast, rfl⟩
  · refine ⟨h.count_le, h.maxThreads, rfl, Int.ofNat_lt.mp hmore, h.generation,
      h.holder.move (by rw [hpc]; rfl), ?_, h.history.counted ht⟩
    rw [h.generation]
    exact (Function.forall_update_iff ..).mpr
      ⟨History.place_counted, fun u hut => (h.place u).counted hut⟩
  · have hlen : σ.history.current.length + 1 = count := by omega
    refine ⟨h.count_le, h.maxThreads, rfl, by show 0 < count; omega, ?_, ?_, ?_,
      h.history.completed ht hlen⟩
    · show toInt (σ.barrier.generation + 1) = toInt ((σ.history.rounds.length + 1 : Nat) : Int)
      rw [h.generation, toInt_toInt_add]
      push_cast
      rfl
    · refine (h.holder.congr fun u => ?_).move (by rw [hpc]; rfl)
      exact Pc.holds_broadcast _
    · exact (Function.forall_update_iff ..).mpr
        ⟨History.place_completed, fun u hut => (h.place u).completed hut⟩

theorem test (h : Inv count σ) (hg : NotMistaken σ) (hs : σ.test t = some σ') : Inv count σ' := by
  obtain ⟨g, hpc, hcases⟩ := System.test_cases hs
  obtain ⟨hgen, hplace⟩ : σ.history.Place t (.testing g) := hpc ▸ h.place t
  have hheld : (σ.pc t).holds = true := by rw [hpc]; rfl
  rcases hcases with ⟨hstay, rfl⟩ | ⟨hleave, rfl⟩ <;> rcases hplace with hwait | hrel
  · exact h.moved ⟨hgen, hwait⟩ (h.holder.release hheld rfl)
  · exact absurd hstay.1 (hg t g hpc hrel)
  · exact absurd (h.stays hgen hwait) hleave
  · exact h.moved hrel.2 (h.holder.move (by rw [hpc]; rfl))

theorem wake (h : Inv count σ) (hs : σ.wake t = some σ') : Inv count σ' := by
  obtain ⟨g, hpc, rfl⟩ := System.wake_cases hs
  obtain ⟨hgen, hwait⟩ : σ.history.Place t (.sleeping g) := hpc ▸ h.place t
  exact h.moved ⟨hgen, .inl hwait⟩ (h.holder.move (by rw [hpc]; rfl))

theorem relock (h : Inv count σ) (hs : σ.relock t = some σ') : Inv count σ' := by
  obtain ⟨g, hpc, hmutex, rfl⟩ := System.relock_cases hs
  have ht : σ.history.Place t (.woken g) := hpc ▸ h.place t
  have hholder := h.holder
  rw [hmutex] at hholder
  exact h.moved ht (hholder.acquire rfl)

theorem unlock (h : Inv count σ) (hs : σ.unlock t = some σ') : Inv count σ' := by
  obtain ⟨r, hpc, rfl⟩ := System.unlock_cases hs
  have ht : σ.history.Place t (.unlocking r) := hpc ▸ h.place t
  have hout : σ.history.Place t .outside := h.history.notMem_current ht.mem_flatten
  have hheld : (σ.pc t).holds = true := by rw [hpc]; rfl
  refine ⟨h.count_le, h.maxThreads, h.waiting, h.waiting_lt, h.generation, h.holder.release hheld rfl,
    (Function.forall_update_iff ..).mpr ⟨hout, fun u _ => h.place u⟩,
    ⟨h.history.current, h.history.log_le, h.history.nodup, h.history.rounds, fun c r' hc => ?_⟩⟩
  rcases List.mem_cons.mp hc with heq | hc
  · cases heq
    exact ht
  · exact h.history.results c r' hc

theorem step {e : Event T} (h : Inv count σ) (hg : NotMistaken σ) (hs : σ.step e = some σ') :
    Inv count σ' := by
  cases e with
  | call t => exact h.call hs
  | lock t => exact h.lock hs
  | arrive t => exact h.arrive hs
  | test t => exact h.test hg hs
  | wake t => exact h.wake hs
  | relock t => exact h.relock hs
  | unlock t => exact h.unlock hs

end Inv

end OsExercises.Barrier
