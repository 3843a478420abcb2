import OsExercises.FreeList.SortedList
import OsExercises.Lib.Mutex
import OsExercises.Lib.Transition

/-!
# The lock discipline of the global variant

Any number of threads call the four functions of `task_1/free_list_allocator.c`. A call waits for
`free_list_alloc_mutex` (`waiting`), runs its body while it holds it (`inside`) and returns. Every
access to the allocator's variables lies between the lock and the return, so a body is one step.
`LockOk` says that only a call in progress holds the mutex. The path of `my_free` that rejects a
block already on the list returns without unlocking; it is taken only for such blocks
(`findPlace_onChain`), so runs without a double free keep `LockOk` (`disciplined_of_meets`).
-/

namespace OsExercises.FreeList
open Transition

inductive Call where
  | init (total_size : Nat) (mapped : Option Nat)
  | destroy (unmapped : Bool)
  | malloc (size : Nat)
  | free (ptr : Nat)
deriving DecidableEq

/-- The body of a call and the pointer it returns (`0` for the `void` functions). -/
def Global.body (g : Global) : Call → Option (Global × Nat)
  | .init total_size mapped => (Global.myAllocatorInit total_size mapped g).map fun g => (g, 0)
  | .destroy unmapped => some (Global.myAllocatorDestroy unmapped g, 0)
  | .malloc size => some (Global.myMalloc size g)
  | .free ptr => (Global.myFree ptr g).map fun g => (g, 0)

inductive Phase where
  | idle
  | waiting (c : Call)
  | inside (c : Call)
deriving DecidableEq

/-- The call has `free_list_alloc_mutex`. -/
def Phase.holds : Phase → Bool
  | .inside _ => true
  | _ => false

theorem Phase.holds_iff {p : Phase} : p.holds = true ↔ ∃ c, p = .inside c := by
  cases p <;> simp [Phase.holds]

structure System (T : Type*) where
  global : Global
  phase : T → Phase
  /-- Every pointer `my_malloc` has returned. -/
  returned : List Nat

inductive Event (T : Type*) where
  | call (t : T) (c : Call)
  | enter (t : T)
  | leave (t : T)

namespace System

variable {T : Type*} [DecidableEq T]

def start (mem : Mem) : System T := ⟨⟨State.initial mem, false⟩, fun _ => .idle, []⟩

/-- `my_free` is only given pointers that `my_malloc` returned. -/
def permits (σ : System T) : Call → Bool
  | .free ptr => ptr ∈ σ.returned
  | _ => true

def step (σ : System T) : Event T → Option (System T)
  | .call t c =>
    if σ.phase t = .idle ∧ σ.permits c then
      some { σ with phase := Function.update σ.phase t (.waiting c) }
    else none
  | .enter t =>
    match σ.phase t with
    | .waiting c => σ.global.lock.map fun g =>
        { σ with global := g, phase := Function.update σ.phase t (.inside c) }
    | _ => none
  | .leave t =>
    match σ.phase t with
    | .inside c => (σ.global.body c).map fun r =>
        { global := r.1
          phase := Function.update σ.phase t .idle
          returned := if r.2 = 0 then σ.returned else r.2 :: σ.returned }
    | _ => none

end System

/-! ### Which bodies unlock -/

theorem findPlace_onChain {m : Mem} {b start c : Nat} (hs : start ≠ 0)
    (h : findPlace m b start = some c) : OnChain (next m) 0 start c := by
  refine (whileLoop_inv (I := OnChain (next m) 0 start) ?_ (.here _ hs) h).1
  rintro d e hd hgo he
  obtain rfl : next m d = e := Option.some.inj he
  exact hd.advance (by simpa using (of_decide_eq_true hgo).1)

/-- Every path of `my_free` unlocks, except the one that finds the block on the list. -/
theorem Global.myFree_unlocks {g g' : Global} {ptr : Nat} (h : Global.myFree ptr g = some g')
    (hnot : ¬ OnChain (next g.heap.mem) 0 g.heap.headerStart (sizeSub ptr sizeofHeader)) :
    g'.mutex = false := by
  unfold Global.myFree at h
  by_cases hp : g.heap.pool = 0
  · rw [if_pos hp] at h
    exact Option.some.inj h ▸ rfl
  rw [if_neg hp] at h
  by_cases hh : g.heap.headerStart = 0 ∨ g.heap.headerStart > sizeSub ptr sizeofHeader
  · simp only [hh, if_true] at h
    exact Option.some.inj h ▸ rfl
  simp only [hh, if_false] at h
  obtain ⟨c, hc, h⟩ := Option.bind_eq_some_iff.1 h
  have hcb : c ≠ sizeSub ptr sizeofHeader := by
    rintro rfl
    exact hnot (findPlace_onChain (fun h0 => hh (.inl h0)) hc)
  rw [if_neg hcb] at h
  exact Option.some.inj h ▸ rfl

/-- On a well-formed list the exception is real: freeing a free slot returns with the mutex held. -/
theorem Global.myFree_keeps_mutex {g : Global} {l : List Nat} {b : Nat} (h : Wf g.heap l) (hb : b ∈ l)
    (hg : g.mutex = true) : ∃ g', Global.myFree (b + 8) g = some g' ∧ g'.mutex = true := by
  have hpool := h.pool_pos
  obtain ⟨hhead, hfind⟩ := h.findPlace_mem hb
  refine ⟨g, ?_, hg⟩
  rw [Global.myFree, if_neg (by omega)]
  simp only [h.sizeSub_payload (h.slot b hb)]
  rw [if_neg hhead, hfind]
  simp

theorem Global.body_unlocks {g g' : Global} {c : Call} {p : Nat} (h : g.body c = some (g', p))
    (hfree : ∀ ptr, c = .free ptr →
      ¬ OnChain (next g.heap.mem) 0 g.heap.headerStart (sizeSub ptr sizeofHeader)) :
    g'.mutex = false := by
  cases c with
  | init total_size mapped =>
    obtain ⟨g₁, h₁, heq⟩ := Option.map_eq_some_iff.1 h
    cases heq
    unfold Global.myAllocatorInit at h₁
    by_cases hp : g.heap.pool = 0
    · rw [if_neg (by simpa using hp)] at h₁
      cases mapped with
      | none => exact Option.some.inj h₁ ▸ rfl
      | some base =>
        obtain ⟨s, -, h₁⟩ := Option.bind_eq_some_iff.1 h₁
        exact Option.some.inj h₁ ▸ rfl
    · rw [if_pos hp] at h₁
      exact Option.some.inj h₁ ▸ rfl
  | destroy unmapped =>
    cases h
    unfold Global.myAllocatorDestroy
    split
    · rfl
    · split <;> rfl
  | malloc size =>
    have h₁ : Global.myMalloc size g = (g', p) := Option.some.inj h
    obtain rfl : (Global.myMalloc size g).1 = g' := by rw [h₁]
    unfold Global.myMalloc
    split
    · rfl
    · split
      · rfl
      · split <;> rfl
  | free ptr =>
    obtain ⟨g₁, h₁, heq⟩ := Option.map_eq_some_iff.1 h
    cases heq
    exact Global.myFree_unlocks h₁ (hfree ptr rfl)

/-! ### Runs -/

namespace System
variable {T : Type*} [DecidableEq T] {σ σ' : System T} {t u : T} {c d : Call}

theorem step_call_eq_some : step σ (.call t c) = some σ' ↔
    (σ.phase t = .idle ∧ σ.permits c = true) ∧
      σ' = { σ with phase := Function.update σ.phase t (.waiting c) } := by
  simp only [step, Option.ite_none_right_eq_some, Option.some.injEq]
  exact and_congr_right fun _ => eq_comm

theorem step_enter_eq_some : step σ (.enter t) = some σ' ↔
    ∃ c, σ.phase t = .waiting c ∧ σ.global.mutex = false ∧
      σ' = { σ with global := { σ.global with mutex := true }
                    phase := Function.update σ.phase t (.inside c) } := by
  unfold step
  cases hp : σ.phase t with
  | idle => simp [hp]
  | inside c => simp [hp]
  | waiting c =>
    cases hm : σ.global.mutex with
    | true => simp [hp, Global.lock, hm]
    | false =>
      simp only [hp, Global.lock, hm, Bool.false_eq_true, if_false, Option.map_some, Option.some.injEq]
      simp [eq_comm]

theorem step_leave_eq_some : step σ (.leave t) = some σ' ↔
    ∃ c g p, σ.phase t = .inside c ∧ σ.global.body c = some (g, p) ∧
      σ' = { global := g
             phase := Function.update σ.phase t .idle
             returned := if p = 0 then σ.returned else p :: σ.returned } := by
  cases hp : σ.phase t <;> simp [step, hp, eq_comm]

/-- The mutex is held by the one call that is inside, if any. -/
def LockOk (σ : System T) : Prop :=
  ∃ holder, σ.global.mutex = holder.isSome ∧ Holder Phase.holds holder σ.phase

/-- A call that has returned has released the mutex, and the next call can proceed. -/
structure Disciplined (σ : System T) : Prop where
  released : σ.global.mutex = true → ∃ t c, σ.phase t = .inside c
  proceeds : (∀ t, σ.phase t = .idle) → σ.global.mutex = false ∧
    ∀ t c, σ.permits c = true → ∃ σ', run step σ [.call t c, .enter t] = some σ'

/-- The call that returns with this step does not free a block that is on the free list. -/
def NoDoubleFree (σ : System T) : Event T → Prop
  | .leave t => ∀ ptr, σ.phase t = .inside (.free ptr) →
      ¬ OnChain (next σ.global.heap.mem) 0 σ.global.heap.headerStart (sizeSub ptr sizeofHeader)
  | _ => True

omit [DecidableEq T] in
theorem LockOk.start (mem : Mem) : LockOk (System.start mem : System T) :=
  ⟨none, rfl, fun t => by simp [System.start, Phase.holds]⟩

theorem LockOk.disciplined (h : LockOk σ) : Disciplined σ := by
  obtain ⟨holder, hmutex, hholder⟩ := h
  have hheld : σ.global.mutex = true → ∃ t c, σ.phase t = .inside c := by
    intro hm
    rw [hmutex] at hm
    obtain ⟨t, rfl⟩ := Option.isSome_iff_exists.1 hm
    exact ⟨t, Phase.holds_iff.1 ((hholder t).1 rfl)⟩
  refine ⟨hheld, fun hidle => ?_⟩
  have hfree : σ.global.mutex = false := by
    by_contra hm
    obtain ⟨t, c, hc⟩ := hheld (by simpa using hm)
    rw [hidle t] at hc
    cases hc
  refine ⟨hfree, fun t c hc => ⟨_, run_cons_eq_some.2 ⟨_, step_call_eq_some.2 ⟨⟨hidle t, hc⟩, rfl⟩,
    run_cons_eq_some.2 ⟨_, step_enter_eq_some.2 ⟨c, ?_, hfree, rfl⟩, rfl⟩⟩⟩⟩
  simp

theorem LockOk.call (h : LockOk σ) (hs : step σ (.call t c) = some σ') : LockOk σ' := by
  obtain ⟨⟨hidle, -⟩, rfl⟩ := step_call_eq_some.1 hs
  obtain ⟨holder, hmutex, hholder⟩ := h
  exact ⟨holder, hmutex, hholder.move (by rw [hidle]; rfl)⟩

theorem LockOk.enter (h : LockOk σ) (hs : step σ (.enter t) = some σ') : LockOk σ' := by
  obtain ⟨c, -, hfree, rfl⟩ := step_enter_eq_some.1 hs
  obtain ⟨holder, hmutex, hholder⟩ := h
  rw [hfree] at hmutex
  have hnone : holder.isNone = true := Option.isSome_eq_false_iff.1 hmutex.symm
  obtain rfl : holder = none := Option.isNone_iff_eq_none.1 hnone
  exact ⟨some t, rfl, hholder.acquire rfl⟩

theorem LockOk.leave (h : LockOk σ) (hC : NoDoubleFree σ (.leave t))
    (hs : step σ (.leave t) = some σ') : LockOk σ' := by
  obtain ⟨c, g, p, hc, hbody, rfl⟩ := step_leave_eq_some.1 hs
  obtain ⟨holder, -, hholder⟩ := h
  have hfree : g.mutex = false := Global.body_unlocks hbody fun ptr e => hC ptr (e ▸ hc)
  exact ⟨none, hfree, hholder.release (by rw [hc]; rfl) rfl⟩

theorem LockOk.step {ev : Event T} (h : LockOk σ) (hC : NoDoubleFree σ ev)
    (hs : System.step σ ev = some σ') : LockOk σ' := by
  cases ev with
  | call t c => exact h.call hs
  | enter t => exact h.enter hs
  | leave t => exact h.leave hC hs

theorem disciplined_of_meets (mem : Mem) (events : List (Event T))
    (hC : Meets step NoDoubleFree (start mem) events) :
    Throughout step Disciplined (start mem) events :=
  throughout_of_meets (I := LockOk) (fun _ _ _ h hC hs => h.step hC hs)
    (fun _ h => h.disciplined) (LockOk.start mem) hC

def calls (t : T) (c : Call) : List (Event T) := [.call t c, .enter t, .leave t]

theorem meets_calls (hfree : ∀ ptr, c = .free ptr →
    ¬ OnChain (next σ.global.heap.mem) 0 σ.global.heap.headerStart (sizeSub ptr sizeofHeader)) :
    Meets step NoDoubleFree σ (calls t c) := by
  rintro pre ev hp τ hr
  cases ev with
  | call u d => trivial
  | enter u => trivial
  | leave u =>
    match pre with
    | [] => simp [calls] at hp
    | [_] => simp [calls] at hp
    | [e₁, e₂] =>
      obtain ⟨rfl, rfl, rfl⟩ : e₁ = .call t c ∧ e₂ = .enter t ∧ u = t := by simpa [calls] using hp
      obtain ⟨σ₁, h₁, hr⟩ := run_cons_eq_some.1 hr
      obtain ⟨σ₂, h₂, hr⟩ := run_cons_eq_some.1 hr
      cases hr
      obtain ⟨-, rfl⟩ := step_call_eq_some.1 h₁
      obtain ⟨d, hd, -, rfl⟩ := step_enter_eq_some.1 h₂
      intro ptr hptr
      have hd : c = d := by simpa using hd
      have hptr : d = .free ptr := by simpa using hptr
      exact hfree ptr (hd.trans hptr)
    | e₁ :: e₂ :: e₃ :: pre => simp [calls] at hp

/-- Allocating slot 1 of three and freeing it once: slot 2 is the whole list when it is freed. -/
theorem disciplined_allocFree : Throughout step Disciplined (start fun _ => 0)
    (calls (0 : Fin 2) (.init 3096 (some 65536)) ++ calls 0 (.malloc 1) ++ calls 0 (.free 66576)) := by
  refine disciplined_of_meets (fun _ => 0) _ (meets_append.2 ⟨meets_append.2
    ⟨meets_calls (by simp), fun σ _ => meets_calls (by simp)⟩, fun σ hr => meets_calls ?_⟩)
  have heval : (run step (start fun _ => 0) (calls (0 : Fin 2) (.init 3096 (some 65536)) ++
      calls 0 (.malloc 1))).map (fun σ =>
      (σ.global.heap.headerStart, next σ.global.heap.mem 67600)) = some (67600, 0) := by
    decide +kernel
  obtain ⟨hhead, hnext⟩ : σ.global.heap.headerStart = 67600 ∧ next σ.global.heap.mem 67600 = 0 := by
    simpa [hr] using heval
  have hchain : Chain (next σ.global.heap.mem) 0 σ.global.heap.headerStart [67600] :=
    chain_cons.2 ⟨hhead, by decide, chain_nil.2 hnext⟩
  rintro ptr heq hon
  cases heq
  have hmem := List.mem_singleton.1 (hchain.mem_iff.2 hon)
  revert hmem
  decide

/-- A block freed twice: the second call returns with the mutex held, and the next call of another
thread never gets it. -/
theorem not_disciplined_doubleFree : ∃ σ : System (Fin 2),
    run step (start fun _ => 0) (calls 0 (.init 3096 (some 65536)) ++ calls 0 (.malloc 1) ++
      calls 0 (.free 66576) ++ calls 0 (.free 66576)) = some σ ∧
    (∀ t, σ.phase t = .idle) ∧ σ.global.mutex = true ∧ ¬ Disciplined σ := by
  have heval : (run step (start fun _ => 0) (calls (0 : Fin 2) (.init 3096 (some 65536)) ++
      calls 0 (.malloc 1) ++ calls 0 (.free 66576) ++ calls 0 (.free 66576))).map
      (fun σ => (σ.phase 0, σ.phase 1, σ.global.mutex)) = some (.idle, .idle, true) := by
    decide +kernel
  obtain ⟨σ, hrun, hσ⟩ := Option.map_eq_some_iff.1 heval
  obtain ⟨h0, h1, hm⟩ : σ.phase 0 = .idle ∧ σ.phase 1 = .idle ∧ σ.global.mutex = true := by
    simpa using hσ
  have hidle : ∀ t, σ.phase t = .idle := by
    intro t
    match t with
    | 0 => exact h0
    | 1 => exact h1
  refine ⟨σ, hrun, hidle, hm, fun h => ?_⟩
  have hfree := (h.proceeds hidle).1
  rw [hm] at hfree
  cases hfree

end System
end OsExercises.FreeList
