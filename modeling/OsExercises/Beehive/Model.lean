import OsExercises.Beehive.Field
import OsExercises.Lib.Channel
import OsExercises.Lib.CyclicBarrier
import OsExercises.Lib.Transition

/-!
# The beehive

`src/exercise12/task_1/beehive.c` with its `myqueue.h`, under any scheduler. A step of a bee is what it
does between two accesses to what the bees share; taking a mutex and giving it up are steps of their
own. The two barriers are those of `Lib/CyclicBarrier.lean`. `verdicts`, `collected` and `pushes` are not
part of the program: they record the values of the loop condition, the nectar collected and who reported
what.
-/

namespace OsExercises.Beehive
open CyclicBarrier Grid

/-! ### `myqueue.h` -/

/-- The entries of a `myqueue`, with the log of all pushes and pops. -/
abbrev MyQueue (n : Nat) := Channel (Fin n) Pos

def myqueueInit (n : Nat) : MyQueue n := Channel.empty

def myqueueIsEmpty {n : Nat} (q : MyQueue n) : Bool := q.queue.isEmpty

def myqueuePush {n : Nat} (q : MyQueue n) (value : Pos) : MyQueue n := q.send value

/-- `none` if the assertion fails that the queue is not empty. -/
def myqueuePop {n : Nat} (q : MyQueue n) (t : Fin n) : Option (Pos × MyQueue n) := q.receive t

/-! ### The bees -/

inductive BeeState where
  | working
  | collecting
deriving DecidableEq

/-- Where a bee is in `bee_work`. -/
inductive Pc where
  /-- Before `field_mut` is taken for the loop condition. -/
  | lockingLoop
  | testing
  /-- Holds `field_mut`, with the value of the loop condition. -/
  | unlockingLoop (verdict : Bool)
  | lockingQueue
  | popping
  | unlockingQueue
  | lockingField
  | checking
  | harvesting
  /-- Holds `field_mut`, at the condition of the loop over the neighbours. -/
  | looking (i : Nat)
  /-- Holds `field_mut`, with a neighbour that is not harvested. -/
  | unlockingFound (i : Fin 4)
  | lockingPush (i : Fin 4)
  | pushing (i : Fin 4)
  | unlockingPush (i : Fin 4)
  /-- Before `field_mut` is taken again. -/
  | relocking (i : Fin 4)
  /-- Holds `field_mut`, at the end of the branch. -/
  | unlockingField
  | sleeping
  | inBear
  /-- Before `res` is compared. -/
  | deciding (res : Bool)
  | lockingAll
  | settingAll
  | unlockingAll
  /-- Before the two calls of `rand`. -/
  | fighting
  | lockingDestroy
  | destroying
  | unlockingDestroy
  /-- Before the second barrier. -/
  | enteringCycle
  | inCycle
  | finished
deriving DecidableEq

namespace Pc

def holdsField : Pc → Bool
  | .testing | .unlockingLoop _ | .checking | .harvesting | .looking _ | .unlockingFound _
  | .unlockingField | .settingAll | .unlockingAll | .destroying | .unlockingDestroy => true
  | _ => false

def holdsQueue : Pc → Bool
  | .popping | .unlockingQueue | .pushing _ | .unlockingPush _ => true
  | _ => false

/-- The bee is to take `field_mut`; with the place after that. -/
def lockField? : Pc → Option Pc
  | .lockingLoop => some .testing
  | .lockingField => some .checking
  | .relocking i => some (.looking (i + 1))
  | .lockingAll => some .settingAll
  | .lockingDestroy => some .destroying
  | _ => none

/-- The bee is to give `field_mut` up, and goes on at the same place whatever its state is. -/
def unlockField? : Pc → Option Pc
  | .unlockingLoop false => some .finished
  | .unlockingFound i => some (.lockingPush i)
  | .unlockingAll => some .fighting
  | .unlockingDestroy => some .enteringCycle
  | _ => none

def lockQueue? : Pc → Option Pc
  | .lockingQueue => some .popping
  | .lockingPush i => some (.pushing i)
  | _ => none

def unlockQueue? : Pc → Option Pc
  | .unlockingQueue => some .sleeping
  | .unlockingPush i => some (.relocking i)
  | _ => none

end Pc

/-- The local variables of `bee_work`. -/
structure Bee where
  pc : Pc
  state : BeeState
  position : Pos
  verdicts : List Bool
deriving DecidableEq

/-- `pl_t` and the bees. -/
structure System (n : Nat) where
  field : Field
  queue : MyQueue n
  hiveDestroyed : Bool
  allHarvested : Bool
  fieldMut : Option (Fin n)
  queueMut : Option (Fin n)
  barrierBear : Fin n → Place
  barrierNewCycle : Fin n → Place
  bees : Fin n → Bee
  /-- The position of each nectar that was collected, the first one first. -/
  collected : List Pos
  /-- What was pushed by a bee, with the flower it had harvested, the first one first. -/
  pushes : List (Pos × Pos)

/-- The arguments that `main` accepts. -/
structure Args where
  width : Int
  height : Int
  beeAmount : Nat
  width_pos : 1 ≤ width
  height_pos : 1 ≤ height
  beeAmount_pos : 1 ≤ beeAmount

theorem Args.area (args : Args) :
    ((args.width.toNat * args.height.toNat : Nat) : Int) = args.width * args.height := by
  have hwidth := args.width_pos
  have hheight := args.height_pos
  rw [Nat.cast_mul, Int.toNat_of_nonneg (by omega), Int.toNat_of_nonneg (by omega)]

inductive Event (n : Nat) where
  /-- The next step of a bee in `bee_work`, other than that of `fight`. -/
  | work (t : Fin n)
  /-- The two calls of `rand`, with their values. -/
  | fight (t : Fin n) (r₁ r₂ : Nat)
  /-- All bees have arrived, and `t` is the serial thread. -/
  | bear (t : Fin n)
  | newCycle (t : Fin n)

namespace System

variable {n : Nat}

/-- What `main` does before it creates the bees, with the values of `rand`. The positions of the bees
are not initialized. -/
def start (args : Args) (r₁ r₂ : Nat) (uninit : Fin args.beeAmount → Pos) : System args.beeAmount where
  field := fieldInit args.width args.height
  queue := myqueuePush (myqueueInit _) (fieldRandomPos (fieldInit args.width args.height) r₁ r₂)
  hiveDestroyed := false
  allHarvested := false
  fieldMut := none
  queueMut := none
  barrierBear := fun _ => .outside
  barrierNewCycle := fun _ => .outside
  bees := fun t => ⟨.lockingLoop, .working, uninit t, []⟩
  collected := []
  pushes := []

def pc (σ : System n) (t : Fin n) : Pc := (σ.bees t).pc

def go (σ : System n) (t : Fin n) (p : Pc) : Fin n → Bee :=
  Function.update σ.bees t { σ.bees t with pc := p }

def lockField (σ : System n) (t : Fin n) (p : Pc) : Option (System n) :=
  match σ.fieldMut with
  | none => some { σ with fieldMut := some t, bees := σ.go t p }
  | some _ => none

def unlockField (σ : System n) (t : Fin n) (p : Pc) : System n :=
  { σ with fieldMut := none, bees := σ.go t p }

def lockQueue (σ : System n) (t : Fin n) (p : Pc) : Option (System n) :=
  match σ.queueMut with
  | none => some { σ with queueMut := some t, bees := σ.go t p }
  | some _ => none

def unlockQueue (σ : System n) (t : Fin n) (p : Pc) : System n :=
  { σ with queueMut := none, bees := σ.go t p }

/-- The condition of the loop in `bee_work`. -/
def condition (σ : System n) : Bool := !σ.allHarvested && !σ.hiveDestroyed

def beeWork (σ : System n) (t : Fin n) : Option (System n) :=
  let bee := σ.bees t
  match bee.pc with
  | .lockingLoop => σ.lockField t .testing
  | .testing => some { σ with
      bees := Function.update σ.bees t { bee with
        pc := .unlockingLoop σ.condition
        verdicts := bee.verdicts ++ [σ.condition] } }
  | .unlockingLoop true =>
    match bee.state with
    | .working => some (σ.unlockField t .lockingQueue)
    | .collecting => some (σ.unlockField t .lockingField)
  | .unlockingLoop false => some (σ.unlockField t .finished)
  | .lockingQueue => σ.lockQueue t .popping
  | .popping =>
    if myqueueIsEmpty σ.queue = false then
      (myqueuePop σ.queue t).map fun r => { σ with
        queue := r.2
        bees := Function.update σ.bees t { bee with
          pc := .unlockingQueue
          state := .collecting
          position := r.1 } }
    else some { σ with bees := σ.go t .unlockingQueue }
  | .unlockingQueue => some (σ.unlockQueue t .sleeping)
  | .lockingField => σ.lockField t .checking
  | .checking =>
    if fieldIsHarvested σ.field bee.position.x bee.position.y = false then
      some { σ with bees := σ.go t .harvesting }
    else some { σ with bees := σ.go t .unlockingField }
  | .harvesting => some { σ with
      field := fieldHarvest σ.field bee.position.x bee.position.y
      bees := σ.go t (.looking 0)
      collected := σ.collected ++ [bee.position] }
  | .looking i =>
    if h : i < 4 then
      let q := neighbours bee.position ⟨i, h⟩
      if fieldIsHarvested σ.field q.x q.y = false then
        some { σ with bees := σ.go t (.unlockingFound ⟨i, h⟩) }
      else some { σ with bees := σ.go t (.looking (i + 1)) }
    else some { σ with bees := σ.go t .unlockingField }
  | .unlockingFound i => some (σ.unlockField t (.lockingPush i))
  | .lockingPush i => σ.lockQueue t (.pushing i)
  | .pushing i => some { σ with
      queue := myqueuePush σ.queue (neighbours bee.position i)
      bees := σ.go t (.unlockingPush i)
      pushes := σ.pushes ++ [(bee.position, neighbours bee.position i)] }
  | .unlockingPush i => some (σ.unlockQueue t (.relocking i))
  | .relocking i => σ.lockField t (.looking (i + 1))
  | .unlockingField => some { σ with
      fieldMut := none
      bees := Function.update σ.bees t { bee with pc := .sleeping, state := .working } }
  | .sleeping =>
    (call? σ.barrierBear t).map fun b => { σ with barrierBear := b, bees := σ.go t .inBear }
  | .inBear =>
    (return? σ.barrierBear t).map fun r => { σ with
      barrierBear := r.2
      bees := σ.go t (.deciding r.1) }
  | .deciding true => some { σ with bees := σ.go t .lockingAll }
  | .deciding false => some { σ with bees := σ.go t .enteringCycle }
  | .lockingAll => σ.lockField t .settingAll
  | .settingAll => some { σ with
      allHarvested := fieldAllIsHarvested σ.field
      bees := σ.go t .unlockingAll }
  | .unlockingAll => some (σ.unlockField t .fighting)
  | .lockingDestroy => σ.lockField t .destroying
  | .destroying => some { σ with hiveDestroyed := true, bees := σ.go t .unlockingDestroy }
  | .unlockingDestroy => some (σ.unlockField t .enteringCycle)
  | .enteringCycle =>
    (call? σ.barrierNewCycle t).map fun b => { σ with barrierNewCycle := b, bees := σ.go t .inCycle }
  | .inCycle =>
    (return? σ.barrierNewCycle t).map fun r => { σ with
      barrierNewCycle := r.2
      bees := σ.go t .lockingLoop }
  | .fighting | .finished => none

def fight (σ : System n) (t : Fin n) (r₁ r₂ : Nat) : Option (System n) :=
  match σ.pc t with
  | .fighting =>
    if r₁ % 10 < 1 then
      if r₂ % 2 ≠ 0 then some { σ with bees := σ.go t .lockingDestroy }
      else some { σ with bees := σ.go t .enteringCycle }
    else some { σ with bees := σ.go t .enteringCycle }
  | _ => none

def step (σ : System n) : Event n → Option (System n)
  | .work t => σ.beeWork t
  | .fight t r₁ r₂ => σ.fight t r₁ r₂
  | .bear t => (complete? σ.barrierBear t).map fun b => { σ with barrierBear := b }
  | .newCycle t => (complete? σ.barrierNewCycle t).map fun b => { σ with barrierNewCycle := b }

/-! ### What each step does -/

/-- The outcomes of the steps. -/
inductive Step (σ : System n) : Event n → System n → Prop
  | lockField {t : Fin n} {p : Pc} (hpc : (σ.pc t).lockField? = some p) (hfree : σ.fieldMut = none) :
    Step σ (.work t) { σ with fieldMut := some t, bees := σ.go t p }
  | unlockField {t : Fin n} {p : Pc} (hpc : (σ.pc t).unlockField? = some p) :
    Step σ (.work t) { σ with fieldMut := none, bees := σ.go t p }
  | lockQueue {t : Fin n} {p : Pc} (hpc : (σ.pc t).lockQueue? = some p) (hfree : σ.queueMut = none) :
    Step σ (.work t) { σ with queueMut := some t, bees := σ.go t p }
  | unlockQueue {t : Fin n} {p : Pc} (hpc : (σ.pc t).unlockQueue? = some p) :
    Step σ (.work t) { σ with queueMut := none, bees := σ.go t p }
  | test {t : Fin n} (hpc : σ.pc t = .testing) :
    Step σ (.work t) { σ with
      bees := Function.update σ.bees t { σ.bees t with
        pc := .unlockingLoop σ.condition
        verdicts := (σ.bees t).verdicts ++ [σ.condition] } }
  | enterWorking {t : Fin n} (hpc : σ.pc t = .unlockingLoop true) (hstate : (σ.bees t).state = .working) :
    Step σ (.work t) { σ with fieldMut := none, bees := σ.go t .lockingQueue }
  | enterCollecting {t : Fin n} (hpc : σ.pc t = .unlockingLoop true)
    (hstate : (σ.bees t).state = .collecting) :
    Step σ (.work t) { σ with fieldMut := none, bees := σ.go t .lockingField }
  | pop {t : Fin n} {q : Pos} {queue : MyQueue n} (hpc : σ.pc t = .popping)
    (hq : σ.queue.receive t = some (q, queue)) :
    Step σ (.work t) { σ with
      queue := queue
      bees := Function.update σ.bees t { σ.bees t with
        pc := .unlockingQueue
        state := .collecting
        position := q } }
  | noFood {t : Fin n} (hpc : σ.pc t = .popping) (hempty : σ.queue.queue = []) :
    Step σ (.work t) { σ with bees := σ.go t .unlockingQueue }
  | checkFresh {t : Fin n} (hpc : σ.pc t = .checking)
    (hfresh : fieldIsHarvested σ.field (σ.bees t).position.x (σ.bees t).position.y = false) :
    Step σ (.work t) { σ with bees := σ.go t .harvesting }
  | checkGone {t : Fin n} (hpc : σ.pc t = .checking)
    (hgone : fieldIsHarvested σ.field (σ.bees t).position.x (σ.bees t).position.y = true) :
    Step σ (.work t) { σ with bees := σ.go t .unlockingField }
  | harvest {t : Fin n} (hpc : σ.pc t = .harvesting) :
    Step σ (.work t) { σ with
      field := fieldHarvest σ.field (σ.bees t).position.x (σ.bees t).position.y
      bees := σ.go t (.looking 0)
      collected := σ.collected ++ [(σ.bees t).position] }
  | lookFresh {t : Fin n} (i : Fin 4) (hpc : σ.pc t = .looking i)
    (hfresh : fieldIsHarvested σ.field (neighbours (σ.bees t).position i).x
      (neighbours (σ.bees t).position i).y = false) :
    Step σ (.work t) { σ with bees := σ.go t (.unlockingFound i) }
  | lookGone {t : Fin n} (i : Fin 4) (hpc : σ.pc t = .looking i)
    (hgone : fieldIsHarvested σ.field (neighbours (σ.bees t).position i).x
      (neighbours (σ.bees t).position i).y = true) :
    Step σ (.work t) { σ with bees := σ.go t (.looking (i + 1)) }
  | lookEnd {t : Fin n} {i : Nat} (hpc : σ.pc t = .looking i) (hi : ¬ i < 4) :
    Step σ (.work t) { σ with bees := σ.go t .unlockingField }
  | push {t : Fin n} {i : Fin 4} (hpc : σ.pc t = .pushing i) :
    Step σ (.work t) { σ with
      queue := σ.queue.send (neighbours (σ.bees t).position i)
      bees := σ.go t (.unlockingPush i)
      pushes := σ.pushes ++ [((σ.bees t).position, neighbours (σ.bees t).position i)] }
  | leave {t : Fin n} (hpc : σ.pc t = .unlockingField) :
    Step σ (.work t) { σ with
      fieldMut := none
      bees := Function.update σ.bees t { σ.bees t with pc := .sleeping, state := .working } }
  | enterBear {t : Fin n} {b : Fin n → Place} (hpc : σ.pc t = .sleeping)
    (hb : call? σ.barrierBear t = some b) :
    Step σ (.work t) { σ with barrierBear := b, bees := σ.go t .inBear }
  | exitBear {t : Fin n} {serial : Bool} {b : Fin n → Place} (hpc : σ.pc t = .inBear)
    (hb : return? σ.barrierBear t = some (serial, b)) :
    Step σ (.work t) { σ with barrierBear := b, bees := σ.go t (.deciding serial) }
  | decideSerial {t : Fin n} (hpc : σ.pc t = .deciding true) :
    Step σ (.work t) { σ with bees := σ.go t .lockingAll }
  | decide {t : Fin n} (hpc : σ.pc t = .deciding false) :
    Step σ (.work t) { σ with bees := σ.go t .enteringCycle }
  | setAll {t : Fin n} (hpc : σ.pc t = .settingAll) :
    Step σ (.work t) { σ with
      allHarvested := fieldAllIsHarvested σ.field
      bees := σ.go t .unlockingAll }
  | lose {t : Fin n} {r₁ r₂ : Nat} (hpc : σ.pc t = .fighting) :
    Step σ (.fight t r₁ r₂) { σ with bees := σ.go t .lockingDestroy }
  | survive {t : Fin n} {r₁ r₂ : Nat} (hpc : σ.pc t = .fighting) :
    Step σ (.fight t r₁ r₂) { σ with bees := σ.go t .enteringCycle }
  | destroy {t : Fin n} (hpc : σ.pc t = .destroying) :
    Step σ (.work t) { σ with hiveDestroyed := true, bees := σ.go t .unlockingDestroy }
  | enterCycle {t : Fin n} {b : Fin n → Place} (hpc : σ.pc t = .enteringCycle)
    (hb : call? σ.barrierNewCycle t = some b) :
    Step σ (.work t) { σ with barrierNewCycle := b, bees := σ.go t .inCycle }
  | exitCycle {t : Fin n} {serial : Bool} {b : Fin n → Place} (hpc : σ.pc t = .inCycle)
    (hb : return? σ.barrierNewCycle t = some (serial, b)) :
    Step σ (.work t) { σ with barrierNewCycle := b, bees := σ.go t .lockingLoop }
  | completeBear {t : Fin n} {b : Fin n → Place} (hb : complete? σ.barrierBear t = some b) :
    Step σ (.bear t) { σ with barrierBear := b }
  | completeCycle {t : Fin n} {b : Fin n → Place} (hb : complete? σ.barrierNewCycle t = some b) :
    Step σ (.newCycle t) { σ with barrierNewCycle := b }

variable {σ σ' : System n} {t : Fin n} {p : Pc} {e : Event n}

theorem lockField_cases (hpc : (σ.pc t).lockField? = some p) (h : σ.lockField t p = some σ') :
    Step σ (.work t) σ' := by
  unfold lockField at h
  split at h <;> cases h
  next hfree => exact .lockField hpc hfree

theorem lockQueue_cases (hpc : (σ.pc t).lockQueue? = some p) (h : σ.lockQueue t p = some σ') :
    Step σ (.work t) σ' := by
  unfold lockQueue at h
  split at h <;> cases h
  next hfree => exact .lockQueue hpc hfree

theorem beeWork_cases (h : σ.beeWork t = some σ') : Step σ (.work t) σ' := by
  unfold beeWork at h
  dsimp only at h
  split at h
  · next hpc => exact lockField_cases (congrArg Pc.lockField? hpc) h
  · next hpc =>
    cases h
    exact .test hpc
  · next hpc =>
    split at h <;> cases h
    · next hstate => exact .enterWorking hpc hstate
    · next hstate => exact .enterCollecting hpc hstate
  · next hpc =>
    cases h
    exact .unlockField (congrArg Pc.unlockField? hpc)
  · next hpc => exact lockQueue_cases (congrArg Pc.lockQueue? hpc) h
  · next hpc =>
    split at h
    · obtain ⟨⟨q, queue⟩, hq, rfl⟩ := Option.map_eq_some_iff.mp h
      exact .pop hpc hq
    · next hempty =>
      cases h
      refine .noFood hpc ?_
      simpa [myqueueIsEmpty] using hempty
  · next hpc =>
    cases h
    exact .unlockQueue (congrArg Pc.unlockQueue? hpc)
  · next hpc => exact lockField_cases (congrArg Pc.lockField? hpc) h
  · next hpc =>
    split at h <;> cases h
    · next hfresh => exact .checkFresh hpc hfresh
    · next hgone => exact .checkGone hpc (by simpa using hgone)
  · next hpc =>
    cases h
    exact .harvest hpc
  · next i hpc =>
    split at h
    · next hi =>
      split at h <;> cases h
      · next hfresh => exact .lookFresh ⟨i, hi⟩ hpc hfresh
      · next hgone => exact .lookGone ⟨i, hi⟩ hpc (by simpa using hgone)
    · next hi =>
      cases h
      exact .lookEnd hpc hi
  · next hpc =>
    cases h
    exact .unlockField (congrArg Pc.unlockField? hpc)
  · next hpc => exact lockQueue_cases (congrArg Pc.lockQueue? hpc) h
  · next hpc =>
    cases h
    exact .push hpc
  · next hpc =>
    cases h
    exact .unlockQueue (congrArg Pc.unlockQueue? hpc)
  · next hpc => exact lockField_cases (congrArg Pc.lockField? hpc) h
  · next hpc =>
    cases h
    exact .leave hpc
  · next hpc =>
    obtain ⟨b, hb, rfl⟩ := Option.map_eq_some_iff.mp h
    exact .enterBear hpc hb
  · next hpc =>
    obtain ⟨⟨serial, b⟩, hb, rfl⟩ := Option.map_eq_some_iff.mp h
    exact .exitBear hpc hb
  · next hpc =>
    cases h
    exact .decideSerial hpc
  · next hpc =>
    cases h
    exact .decide hpc
  · next hpc => exact lockField_cases (congrArg Pc.lockField? hpc) h
  · next hpc =>
    cases h
    exact .setAll hpc
  · next hpc =>
    cases h
    exact .unlockField (congrArg Pc.unlockField? hpc)
  · next hpc => exact lockField_cases (congrArg Pc.lockField? hpc) h
  · next hpc =>
    cases h
    exact .destroy hpc
  · next hpc =>
    cases h
    exact .unlockField (congrArg Pc.unlockField? hpc)
  · next hpc =>
    obtain ⟨b, hb, rfl⟩ := Option.map_eq_some_iff.mp h
    exact .enterCycle hpc hb
  · next hpc =>
    obtain ⟨⟨serial, b⟩, hb, rfl⟩ := Option.map_eq_some_iff.mp h
    exact .exitCycle hpc hb
  · cases h
  · cases h

theorem step_cases (h : σ.step e = some σ') : Step σ e σ' := by
  cases e with
  | work t => exact beeWork_cases h
  | fight t r₁ r₂ =>
    simp only [step, fight] at h
    split at h
    · next hpc =>
      split at h
      · split at h <;> cases h
        · exact .lose hpc
        · exact .survive hpc
      · cases h
        exact .survive hpc
    · cases h
  | bear t =>
    obtain ⟨b, hb, rfl⟩ := Option.map_eq_some_iff.mp h
    exact .completeBear hb
  | newCycle t =>
    obtain ⟨b, hb, rfl⟩ := Option.map_eq_some_iff.mp h
    exact .completeCycle hb

end System
end OsExercises.Beehive
