import OsExercises.Lib.Decimal
import OsExercises.Lib.Loop
import OsExercises.Life.Field

/-!
# The frames

`step_field`, `write_field` and the loop of `main` of `src/exercise01/task1/template/game.c`. The loop
reads one of the two fields and overwrites the other, which is the one to be read next; so the field that
is read always holds a whole generation. The buffer for the path of a file is too small for a frame with
six digits, so the frames are right exactly if there is none (`framesOk_iff`).
-/

namespace OsExercises.Life
open Grid

variable {s : Size}

/-! ### The code -/

/-- The body of the two loops of `step_field`. -/
def stepCell (field dest : FieldPtr) (heap : Heap s) (p : Pos) : Heap s :=
  let isAlive := getValueField heap (some field) p.x p.y
  let aliveNeighbours := aliveNeighboursField heap (some field) p.x p.y
  if !isAlive ∧ aliveNeighbours = 3 then setValueField heap (some dest) p.x p.y true
  else if !isAlive then setValueField heap (some dest) p.x p.y false
  else if isAlive ∧ (aliveNeighbours < 2 ∨ 3 < aliveNeighbours) then
    setValueField heap (some dest) p.x p.y false
  else setValueField heap (some dest) p.x p.y true

/-- The positions `ps` of the loops. -/
def stepCells (field dest : FieldPtr) (heap : Heap s) (ps : List Pos) : Heap s :=
  ps.foldl (stepCell field dest) heap

def stepField (heap : Heap s) (field dest : Option FieldPtr) : Heap s :=
  match field, dest with
  | some f, some d => stepCells f d heap (columns s.width s.height)
  | _, _ => heap

structure File where
  path : List UInt8
  text : List UInt8

def pbm (data : Data s) : List UInt8 :=
  ascii "P1\n" ++ decimal s.width.toNat ++ ascii " " ++ decimal s.height.toNat ++
    (List.finRange s.area).flatMap fun i =>
      (if i.1 % 76 = 0 then ascii "\n" else []) ++ [UInt8.ofNat ((data i).toNat + 48)]

/-- What `sprintf` stores in an array of `size` bytes; `none` if the text and its NUL byte do not fit. -/
def sprintf? (size : Nat) (text : List UInt8) : Option (List UInt8) :=
  if text.length + 1 ≤ size then some text else none

/-- `gol_%05d.pbm` -/
def golPath (frame : Int) : List UInt8 := ascii "gol_" ++ paddedDecimal 5 frame ++ ascii ".pbm"

def writeField (heap : Heap s) (field : Option FieldPtr) (frame : Int) : Option (List File) :=
  match field with
  | none => some []
  | some f => (sprintf? 14 (golPath frame)).map fun path => [⟨path, pbm (heap f)⟩]

structure MainState (s : Size) where
  heap : Heap s
  source : FieldPtr
  frame : Int
  /-- What was written, the first file first. -/
  files : List File

def mainGoing (steps : Int) (σ : MainState s) : Bool := σ.frame ≤ steps

def mainBody (σ : MainState s) : Option (MainState s) := do
  let written ← writeField σ.heap (some σ.source) σ.frame
  let frame ← intAdd? σ.frame 1
  if σ.source = .field1 then
    return ⟨stepField σ.heap (some .field1) (some .field2), .field2, frame, σ.files ++ written⟩
  else return ⟨stepField σ.heap (some .field2) (some .field1), .field1, frame, σ.files ++ written⟩

def mainStart (heap : Heap s) : MainState s := ⟨heap, .field1, 0, []⟩

/-- `main` once `populate_field` has given the first field its cells; those of the second one are
arbitrary. -/
def main (heap : Heap s) (steps : Int) : Option (MainState s) :=
  whileLoop (mainGoing steps) mainBody ((steps + 1).toNat + 1) (mainStart heap)

/-- The first `k` rounds of the loop of `main`. -/
def rounds (heap : Heap s) (k : Nat) : Option (MainState s) :=
  forLoop (fun _ => mainBody) k (mainStart heap)

/-! ### One step -/

/-- The generation after `alive`. -/
def generation (s : Size) (alive : Pos → Bool) : Pos → Bool :=
  conway.next (fun p => decide (Inside s.width s.height p)) alive

/-- The four cases of `step_field` are the rule. -/
theorem cases_eq_rule {α : Type*} (set : Bool → α) (alive : Bool) (n : Nat) :
    (if !alive ∧ (n : Int) = 3 then set true
      else if !alive then set false
      else if alive ∧ ((n : Int) < 2 ∨ 3 < (n : Int)) then set false
      else set true) = set (conway.rule alive n) := by
  cases alive with
  | false =>
    by_cases hn : n = 3
    · subst hn
      rfl
    · have hn' : ¬ (n : Int) = 3 := by omega
      simp [conway, hn, hn']
  | true =>
    by_cases hn : n = 2 ∨ n = 3
    · have hn' : ¬ ((n : Int) < 2 ∨ 3 < (n : Int)) := by omega
      rcases hn with rfl | rfl <;> rfl
    · have hn' : (n : Int) < 2 ∨ 3 < (n : Int) := by omega
      have h2 : n ≠ 2 := fun h => hn (.inl h)
      have h3 : n ≠ 3 := fun h => hn (.inr h)
      have hdead : conway.rule true n = false := by simp [conway, h2, h3]
      rw [hdead, if_neg (by simp), if_neg (by simp), if_pos ⟨rfl, hn'⟩]

variable {heap : Heap s} {f g : FieldPtr} {p : Pos} {ps : List Pos}

theorem stepCell_eq (h : Inside s.width s.height p) : stepCell f g heap p =
    setValueField heap (some g) p.x p.y (generation s (cells (heap f)) p) := by
  have hrule : generation s (cells (heap f)) p =
      conway.rule (cells (heap f) p) (conway.aliveNeighbours (cells (heap f)) p) := by
    simp [generation, Automaton.next, h]
  unfold stepCell
  rw [getValueField_eq, aliveNeighboursField_eq, hrule]
  exact cases_eq_rule (setValueField heap (some g) p.x p.y) _ _

theorem stepCell_source (hfg : f ≠ g) (h : Inside s.width s.height p) : stepCell f g heap p f = heap f := by
  rw [stepCell_eq h, setValueField_of_ne hfg]

theorem stepCells_source (hfg : f ≠ g) (hps : ∀ p ∈ ps, Inside s.width s.height p) :
    stepCells f g heap ps f = heap f := by
  induction ps generalizing heap with
  | nil => rfl
  | cons p ps ih =>
    obtain ⟨hp, hps⟩ := List.forall_mem_cons.mp hps
    exact (ih hps).trans (stepCell_source hfg hp)

/-- The cells that have been overwritten are those of the next generation, the others are as before. -/
theorem cells_stepCells (hfg : f ≠ g) (hps : ∀ p ∈ ps, Inside s.width s.height p) (q : Pos) :
    cells (stepCells f g heap ps g) q =
      if q ∈ ps then generation s (cells (heap f)) q else cells (heap g) q := by
  induction ps generalizing heap with
  | nil => rfl
  | cons p ps ih =>
    obtain ⟨hp, hps⟩ := List.forall_mem_cons.mp hps
    have hwritten : cells (stepCell f g heap p g) =
        Function.update (cells (heap g)) p (generation s (cells (heap f)) p) := by
      rw [stepCell_eq hp, cells_setValueField hp]
    show cells (stepCells f g (stepCell f g heap p) ps g) q = _
    rw [ih hps, stepCell_source hfg hp, hwritten]
    by_cases hq : q ∈ ps
    · rw [if_pos hq, if_pos (List.mem_cons_of_mem _ hq)]
    · rw [if_neg hq]
      by_cases hqp : q = p
      · subst hqp
        rw [Function.update_self, if_pos List.mem_cons_self]
      · rw [Function.update_of_ne hqp, if_neg (by simp [hqp, hq])]

theorem stepField_dest (hfg : f ≠ g) :
    stepField heap (some f) (some g) g = store (generation s (cells (heap f))) := by
  refine eq_store fun p hp => ?_
  show cells (stepCells f g heap (columns s.width s.height) g) p = _
  rw [cells_stepCells hfg fun _ => mem_columns.mp, if_pos (mem_columns.mpr hp)]

/-! ### All frames -/

theorem cells_store {alive : Pos → Bool} (h : ∀ p, ¬ Inside s.width s.height p → alive p = false) :
    cells (store (s := s) alive) = alive := by
  funext p
  by_cases hp : Inside s.width s.height p
  · rw [cells_of_inside hp]
    show alive (Size.pos (Size.index p hp)) = _
    rw [Size.pos_index]
  · rw [cells_of_not_inside hp, h p hp]

/-- The generation after `k` steps. -/
def nthGeneration (heap : Heap s) (k : Nat) : Pos → Bool := (generation s)^[k] (cells (heap .field1))

theorem cells_store_nthGeneration (heap : Heap s) (k : Nat) :
    cells (store (s := s) (nthGeneration heap k)) = nthGeneration heap k := by
  refine cells_store fun p hp => ?_
  exact Automaton.iterate_next_of_not_inside conway (decide_eq_false hp) (cells_of_not_inside hp) k

def FieldPtr.other : FieldPtr → FieldPtr
  | .field1 => .field2
  | .field2 => .field1

theorem FieldPtr.ne_other (f : FieldPtr) : f ≠ f.other := by
  cases f <;> exact nofun

/-- The path needs 9 bytes besides the digits, the last one is the NUL byte. -/
theorem sprintf_golPath (frame : Nat) :
    sprintf? 14 (golPath frame) = if frame ≤ 99999 then some (golPath frame) else none := by
  have hdigits : (decimal frame).length ≤ 5 ↔ frame < 10 ^ 5 := length_decimal_le_iff (by decide)
  have hlength : (golPath frame).length = 4 + max 5 (decimal frame).length + 4 := by
    rw [golPath, List.length_append, List.length_append, length_paddedDecimal_natCast]
    rfl
  have hfits : (golPath frame).length + 1 ≤ 14 ↔ frame ≤ 99999 := by omega
  rw [sprintf?]
  exact if_congr hfits rfl rfl

/-- The file of the frame `k`. -/
def frameFile (heap : Heap s) (k : Nat) : File :=
  ⟨golPath k, pbm (store (s := s) (nthGeneration heap k))⟩

/-- After `k` rounds the field to be read next holds the generation after `k` steps, and the frames before
it are written. -/
structure Before (heap : Heap s) (k : Nat) (σ : MainState s) : Prop where
  source : σ.heap σ.source = store (nthGeneration heap k)
  frame : σ.frame = k
  files : σ.files = (List.range k).map (frameFile heap)

theorem Before.start (heap : Heap s) : Before heap 0 (mainStart heap) :=
  ⟨eq_store fun _ _ => rfl, rfl, rfl⟩

theorem mainBody_eq {σ : MainState s} {k : Nat} (hframe : σ.frame = k) (hk : k ≤ 99999) : mainBody σ =
    some ⟨stepField σ.heap (some σ.source) (some σ.source.other), σ.source.other, k + 1,
      σ.files ++ [⟨golPath k, pbm (σ.heap σ.source)⟩]⟩ := by
  have hwrite : writeField σ.heap (some σ.source) σ.frame = some [⟨golPath k, pbm (σ.heap σ.source)⟩] := by
    rw [writeField, hframe, sprintf_golPath, if_pos hk]
    rfl
  have hadd : intAdd? σ.frame 1 = some ((k : Int) + 1) := by
    rw [hframe]
    exact intAdd?_eq_some rfl (by unfold INT_MIN; omega) (by unfold INT_MAX; omega)
  simp only [mainBody, hwrite, hadd, Option.bind_eq_bind, Option.bind_some]
  cases σ.source <;> rfl

theorem Before.mainBody {heap : Heap s} {k : Nat} {σ : MainState s} (h : Before heap k σ) (hk : k ≤ 99999) :
    ∃ σ', mainBody σ = some σ' ∧ Before heap (k + 1) σ' := by
  refine ⟨_, mainBody_eq h.frame hk, ?_, rfl, ?_⟩
  · show stepField σ.heap (some σ.source) (some σ.source.other) σ.source.other = _
    rw [stepField_dest (FieldPtr.ne_other _), h.source, cells_store_nthGeneration]
    exact congrArg store (Function.iterate_succ_apply' ..).symm
  · show σ.files ++ [_] = _
    rw [h.files, h.source, List.range_succ, List.map_append]
    rfl

theorem rounds_before (heap : Heap s) {k : Nat} (hk : k ≤ 100000) :
    ∃ σ, rounds heap k = some σ ∧ Before heap k σ :=
  forLoop_inv (Before.start heap) fun _ hi _ h => h.mainBody (by omega)

/-- The loop goes on after fewer rounds than there are frames. -/
theorem mainGoing_of_rounds {heap : Heap s} {k : Nat} {steps : Int} {σ : MainState s} (hk : k ≤ 100000)
    (hsteps : k ≤ steps) (h : rounds heap k = some σ) : mainGoing steps σ = true := by
  obtain ⟨σ', h', hbefore⟩ := rounds_before heap hk
  obtain rfl := Option.some.inj (h'.symm.trans h)
  exact decide_eq_true (hbefore.frame ▸ hsteps)

theorem main_eq_whileLoop {heap : Heap s} {k fuel : Nat} {steps : Int} {σ : MainState s} (hk : k ≤ 100000)
    (hsteps : k ≤ (steps + 1).toNat) (hfuel : (steps + 1).toNat + 1 = k + fuel)
    (h : rounds heap k = some σ) : main heap steps = whileLoop (mainGoing steps) mainBody fuel σ := by
  have hgoing : ∀ i < k, ∀ u, rounds heap i = some u → mainGoing steps u = true :=
    fun i hi u hu => mainGoing_of_rounds (by omega) (by omega) hu
  rw [main, hfuel]
  exact whileLoop_forLoop hgoing h

theorem main_defined (heap : Heap s) {steps : Int} (h : steps ≤ 99999) :
    ∃ σ, main heap steps = some σ ∧ Before heap (steps + 1).toNat σ := by
  obtain ⟨σ, hσ, hbefore⟩ := rounds_before heap (k := (steps + 1).toNat) (by omega)
  refine ⟨σ, ?_, hbefore⟩
  rw [main_eq_whileLoop (by omega) le_rfl rfl hσ]
  refine whileLoop_exit Nat.one_pos (decide_eq_false ?_)
  rw [hbefore.frame]
  omega

/-- The path of the frame with the number 100000 does not fit. -/
theorem main_undefined (heap : Heap s) {steps : Int} (h : 100000 ≤ steps) : main heap steps = none := by
  obtain ⟨σ, hσ, hbefore⟩ := rounds_before heap (k := 100000) le_rfl
  have hbody : mainBody σ = none := by
    have hwrite : writeField σ.heap (some σ.source) σ.frame = none := by
      rw [writeField, hbefore.frame, sprintf_golPath, if_neg (by decide)]
      rfl
    rw [mainBody, hwrite]
    rfl
  have hrest : (steps + 1).toNat + 1 = 100000 + ((steps + 1).toNat - 99999) := by omega
  rw [main_eq_whileLoop le_rfl (by omega) hrest hσ]
  exact whileLoop_undefined (mainGoing_of_rounds le_rfl h hσ) hbody

/-- The frames are the generations, and the field that is read holds a whole generation also while the
other one is being overwritten. -/
structure FramesOk (heap : Heap s) (steps : Int) : Prop where
  files : ∃ σ, main heap steps = some σ ∧ σ.files = (List.range (steps + 1).toNat).map (frameFile heap)
  intact : ∀ k : Nat, k ≤ steps → ∃ σ, rounds heap k = some σ ∧ ∀ ps, ps <+: columns s.width s.height →
    stepCells σ.source σ.source.other σ.heap ps σ.source = store (nthGeneration heap k)

/-- Exactly if the numbers of the frames have no more than five digits. -/
theorem framesOk_iff (s : Size) (heap : Heap s) (steps : Int) : FramesOk heap steps ↔ steps ≤ 99999 := by
  constructor
  · intro h
    by_contra hsteps
    obtain ⟨σ, hσ, -⟩ := h.files
    rw [main_undefined heap (by omega)] at hσ
    cases hσ
  · intro hsteps
    refine ⟨?_, fun k hk => ?_⟩
    · obtain ⟨σ, hσ, hbefore⟩ := main_defined heap hsteps
      exact ⟨σ, hσ, hbefore.files⟩
    · obtain ⟨σ, hσ, hbefore⟩ := rounds_before heap (k := k) (by omega)
      refine ⟨σ, hσ, fun ps hps => ?_⟩
      rw [stepCells_source (FieldPtr.ne_other _) fun p hp => mem_columns.mp (hps.subset hp)]
      exact hbefore.source

/-- A field with one cell. -/
def oneCell : Size := ⟨1, 1, le_rfl, le_rfl, by decide⟩

theorem not_framesOk : ¬ ∀ (s : Size) (heap : Heap s) (steps : Int), 0 ≤ steps → FramesOk heap steps := by
  intro h
  obtain ⟨σ, hσ, -⟩ := (h oneCell (fun _ _ => true) 100000 (by decide)).files
  rw [main_undefined _ le_rfl] at hσ
  cases hσ

end OsExercises.Life
