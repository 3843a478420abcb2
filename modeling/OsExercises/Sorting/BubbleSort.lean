import OsExercises.Lib.CInt
import OsExercises.Lib.Loop
import OsExercises.Lib.Sorting

/-!
# Bubble sort

`bubble_sort` of `src/exercise11/task_1`, of which there are two: the body is the same, the parameters are
in a different order. Accesses outside of the array, signed overflows and loops that do not end have no
result, so a result says that there were none of them (`bubbleSort_sorts`).
-/

namespace OsExercises.Sorting

/-! ### The code -/

def load (numbers : List Int) (j : Int) : Option Int := if 0 ≤ j then numbers[j.toNat]? else none

def store (numbers : List Int) (j v : Int) : Option (List Int) :=
  if 0 ≤ j ∧ j < numbers.length then some (numbers.set j.toNat v) else none

/-- The array and the variables of the inner loop. -/
structure Pass where
  numbers : List Int
  j : Int
  s : Int

def Pass.going (last : Int) (p : Pass) : Bool := p.j < last

def Pass.body (p : Pass) : Option Pass := do
  let next ← intAdd? p.j 1
  let a ← load p.numbers p.j
  let b ← load p.numbers next
  if a > b then
    let numbers ← store p.numbers p.j b
    let numbers ← store numbers next a
    some ⟨numbers, next, 1⟩
  else some ⟨p.numbers, next, p.s⟩

/-- The array and the variables of the outer loop. -/
structure Passes where
  numbers : List Int
  i : Int
  /-- The loop has been left by `break`. -/
  broken : Bool

def Passes.going (last : Int) (x : Passes) : Bool := !x.broken && x.i < last

def Passes.body (size : Int) (x : Passes) : Option Passes := do
  let rest ← intSub? size x.i
  let last ← intSub? rest 1
  let p ← whileLoop (Pass.going last) Pass.body (size.toNat + 1) ⟨x.numbers, 0, 0⟩
  if p.s = 0 then some ⟨p.numbers, x.i, true⟩
  else do
    let i ← intAdd? x.i 1
    some ⟨p.numbers, i, false⟩

def sort (numbers : List Int) (size : Int) : Option (List Int) := do
  let last ← intSub? size 1
  let x ← whileLoop (Passes.going last) (Passes.body size) (size.toNat + 1) ⟨numbers, 0, false⟩
  some x.numbers

/-- `my_program.c` -/
def MyProgram.bubbleSort (numbers : List Int) (size : Int) : Option (List Int) := sort numbers size

/-- `some_library.c` -/
def SomeLibrary.bubbleSort (numNumbers : Int) (numbers : List Int) : Option (List Int) := sort numbers numNumbers

/-! ### One pass -/

variable {numbers front mid rest low top : List Int} {a b m v size last : Int} {s : Int} {p : Pass} {x : Passes}

theorem load_append : load (front ++ a :: rest) front.length = some a := by
  rw [load, if_pos (Int.natCast_nonneg _), Int.toNat_natCast, List.getElem?_append_right le_rfl, Nat.sub_self]
  rfl

theorem store_append : store (front ++ a :: rest) front.length v = some (front ++ v :: rest) := by
  have hlt : (front.length : Int) < (front ++ a :: rest).length := by
    rw [List.length_append, List.length_cons]
    omega
  rw [store, if_pos ⟨Int.natCast_nonneg _, hlt⟩, Int.toNat_natCast, List.set_append_right _ _ le_rfl, Nat.sub_self]
  rfl

/-- The inner loop holds `m` and has `mid` ahead of it. -/
structure Pass.Inv (low top : List Int) (front mid : List Int) (m : Int) (p : Pass) : Prop where
  numbers : p.numbers = front ++ m :: (mid ++ top)
  j : p.j = front.length
  perm : (front ++ m :: mid).Perm low
  passed : Passed (· ≤ ·) (p.s ≠ 0) front m

theorem Pass.Inv.body (h : Pass.Inv low top front (b :: mid) m p) (hmax : front.length + 1 ≤ INT_MAX) :
    ∃ p' front' m', p.body = some p' ∧ Pass.Inv low top front' mid m' p' ∧ front'.length = front.length + 1 := by
  obtain ⟨numbers, j, s⟩ := p
  obtain ⟨rfl, rfl, hperm, hpassed⟩ := h
  have hnext : intAdd? (front.length : Int) 1 = some ((front.length : Int) + 1) :=
    intAdd?_eq_some rfl (by unfold INT_MIN; omega) hmax
  have hlength : ∀ c : Int, ((front ++ [c]).length : Int) = front.length + 1 := by
    intro c
    rw [List.length_append, List.length_singleton, Nat.cast_add]
    rfl
  have hloadNext : ∀ c d : Int, load (front ++ c :: d :: (mid ++ top)) (front.length + 1) = some d := by
    intro c d
    rw [← hlength c, List.append_cons]
    exact load_append
  have hstoreNext : ∀ c d v : Int, store (front ++ c :: d :: (mid ++ top)) (front.length + 1) v =
      some (front ++ c :: v :: (mid ++ top)) := by
    intro c d v
    rw [← hlength c, List.append_cons, store_append, ← List.append_cons]
  simp only [Pass.body, hnext, Option.bind_eq_bind, Option.bind_some, List.cons_append, load_append, hloadNext]
  by_cases hlt : b < m
  · refine ⟨⟨front ++ b :: m :: (mid ++ top), front.length + 1, 1⟩, front ++ [b], m, ?_, ⟨?_, ?_, ?_, ?_⟩, ?_⟩
    · rw [if_pos hlt, store_append, Option.bind_some, hstoreNext]
      rfl
    · exact List.append_cons ..
    · exact (hlength b).symm
    · rw [← List.append_cons]
      exact ((List.Perm.swap m b mid).append_left front).trans hperm
    · have hswap := hpassed.swap (Int.le_of_lt hlt)
      simpa using hswap
    · rw [List.length_append, List.length_singleton]
  · refine ⟨⟨front ++ m :: b :: (mid ++ top), front.length + 1, s⟩, front ++ [m], b, ?_, ⟨?_, ?_, ?_, ?_⟩, ?_⟩
    · rw [if_neg hlt]
    · exact List.append_cons ..
    · exact (hlength m).symm
    · rwa [← List.append_cons]
    · exact hpassed.keep (fun _ _ _ => Int.le_trans) (Int.not_lt.mp hlt)
    · rw [List.length_append, List.length_singleton]

/-- A pass ends with the largest entry of what it went through behind the others. -/
theorem Pass.Inv.loop {fuel : Nat} (h : Pass.Inv low top front mid m p)
    (hlast : last = front.length + mid.length) (hmax : last ≤ INT_MAX) (hfuel : mid.length < fuel) :
    ∃ p' front' m', whileLoop (Pass.going last) Pass.body fuel p = some p' ∧ Pass.Inv low top front' [] m' p' := by
  induction mid generalizing front m p fuel with
  | nil =>
    refine ⟨p, front, m, whileLoop_exit (by omega) (decide_eq_false ?_), h⟩
    rw [h.j, hlast, List.length_nil]
    omega
  | cons b mid ih =>
    rw [List.length_cons] at hlast hfuel
    obtain ⟨p', front', m', hbody, h', hlength⟩ := h.body (by omega)
    obtain ⟨n, rfl⟩ := Nat.exists_eq_add_one.mpr (Nat.zero_lt_of_lt hfuel)
    obtain ⟨p'', front'', m'', hloop, h''⟩ := ih h' (by omega) (Nat.lt_of_succ_lt_succ hfuel)
    have hgoing : Pass.going last p = true := decide_eq_true (by rw [h.j]; omega)
    exact ⟨p'', front'', m'', (whileLoop_step hgoing hbody).trans hloop, h''⟩

/-! ### All passes -/

/-- After `i` passes the last `i` entries are settled. -/
structure Passes.Inv (input low top : List Int) (x : Passes) : Prop where
  numbers : x.numbers = low ++ top
  i : x.i = top.length
  perm : (low ++ top).Perm input
  settled : Settled (· ≤ ·) low top
  sorted : x.broken = true → (low ++ top).Pairwise (· ≤ ·)

variable {input : List Int}

/-- A pass settles one more entry, or finds that all are sorted. -/
theorem Passes.Inv.body (h : Passes.Inv input low top x) (hgoing : x.going (input.length - 1) = true)
    (hmax : input.length ≤ INT_MAX) :
    ∃ x' low' top', x.body input.length = some x' ∧ Passes.Inv input low' top' x' ∧
      (x'.broken = true ∨ top'.length = top.length + 1) := by
  obtain ⟨numbers, i, broken⟩ := x
  obtain ⟨rfl, rfl, hperm, hsettled, -⟩ := h
  have hlt : (top.length : Int) < input.length - 1 := by
    rw [Passes.going, Bool.and_eq_true] at hgoing
    exact of_decide_eq_true hgoing.2
  have hlength := hperm.length_eq
  rw [List.length_append] at hlength
  cases low with
  | nil =>
    rw [List.length_nil] at hlength
    omega
  | cons m mid =>
    rw [List.length_cons] at hlength
    have hrest : intSub? (input.length : Int) top.length = some ((mid.length : Int) + 1) :=
      intSub?_eq_some (by omega) (by unfold INT_MIN; omega) (by omega)
    have hlast : intSub? ((mid.length : Int) + 1) 1 = some (mid.length : Int) :=
      intSub?_eq_some (by omega) (by unfold INT_MIN; omega) (by omega)
    have hstart : Pass.Inv (m :: mid) top [] mid m ⟨m :: mid ++ top, 0, 0⟩ := ⟨rfl, rfl, .refl _, .nil⟩
    have hend : (mid.length : Int) = (([] : List Int).length : Nat) + mid.length := (Int.zero_add _).symm
    have hfuel : mid.length < input.length + 1 := by omega
    obtain ⟨p, front, m', hloop, hp⟩ := hstart.loop hend (by omega) hfuel
    have hsettled' := hsettled.of_perm hp.perm.symm
    have hnumbers : p.numbers = front ++ [m'] ++ top := by
      rw [hp.numbers, ← List.append_cons]
      rfl
    have hperm' : (front ++ [m'] ++ top).Perm input := (hp.perm.append_right top).trans hperm
    simp only [Passes.body, Int.toNat_natCast, hrest, hlast, hloop, Option.bind_eq_bind, Option.bind_some]
    by_cases hs : p.s = 0
    · refine ⟨⟨p.numbers, top.length, true⟩, front ++ [m'], top, ?_, ?_, Or.inl rfl⟩
      · rw [if_pos hs]
      · refine ⟨hnumbers, rfl, hperm', hsettled', fun _ => hsettled'.pairwise ?_⟩
        exact hp.passed.sorted fun hne => hne hs
    · have hnext : intAdd? (top.length : Int) 1 = some ((top.length : Int) + 1) :=
        intAdd?_eq_some rfl (by unfold INT_MIN; omega) (by omega)
      refine ⟨⟨p.numbers, top.length + 1, false⟩, front, m' :: top, ?_, ?_, Or.inr rfl⟩
      · rw [if_neg hs, hnext, Option.bind_some]
      · rw [← List.append_cons] at hnumbers hperm'
        exact ⟨hnumbers, rfl, hperm', hsettled'.push hp.passed.below, fun hbroken => Bool.noConfusion hbroken⟩

/-- After the loop, left either way, everything is sorted. -/
theorem Passes.Inv.of_exit (h : Passes.Inv input low top x) (hgoing : x.going (input.length - 1) = false) :
    x.numbers.Pairwise (· ≤ ·) ∧ x.numbers.Perm input := by
  rw [h.numbers]
  refine ⟨?_, h.perm⟩
  cases hbroken : x.broken with
  | true => exact h.sorted hbroken
  | false =>
    have hge : ¬ x.i < (input.length : Int) - 1 := by simpa [Passes.going, hbroken] using hgoing
    have hlength := h.perm.length_eq
    rw [List.length_append] at hlength
    rw [h.i] at hge
    refine h.settled.pairwise ?_
    match low with
    | [] => exact .nil
    | [a] => exact List.pairwise_singleton _ a
    | a :: b :: rest =>
      rw [List.length_cons, List.length_cons] at hlength
      omega

/-- What is left to do: no pass after `break`. -/
def Passes.measure (size : Nat) (x : Passes) : Nat := if x.broken then 0 else (size - x.i).toNat

theorem exists_sort (h : input.length ≤ INT_MAX) : ∃ sorted, sort input input.length = some sorted ∧
    sorted.Pairwise (· ≤ ·) ∧ sorted.Perm input := by
  have hbody : ∀ x, (∃ low top, Passes.Inv input low top x) → x.going (input.length - 1) = true →
      ∃ x', x.body input.length = some x' ∧ (∃ low top, Passes.Inv input low top x') ∧
        x'.measure input.length < x.measure input.length := by
    rintro x ⟨low, top, hx⟩ hgoing
    obtain ⟨x', low', top', hbody, hx', hless⟩ := hx.body hgoing h
    refine ⟨x', hbody, ⟨low', top', hx'⟩, ?_⟩
    obtain ⟨hbroken, hlt⟩ : x.broken = false ∧ x.i < input.length - 1 := by
      simpa [Passes.going] using hgoing
    have hi := hx.i
    have hi' := hx'.i
    rw [Passes.measure, Passes.measure, hbroken, if_neg Bool.false_ne_true]
    rcases hless with hbroken' | hlength
    · rw [hbroken', if_pos rfl]
      omega
    · split_ifs <;> omega
  have hstart : Passes.Inv input input [] ⟨input, 0, false⟩ :=
    ⟨(List.append_nil _).symm, rfl, by rw [List.append_nil], .nil, fun hbroken => Bool.noConfusion hbroken⟩
  have hfuel : Passes.measure input.length ⟨input, 0, false⟩ < (input.length : Int).toNat + 1 := by
    rw [Passes.measure, if_neg Bool.false_ne_true]
    show ((input.length : Int) - 0).toNat < _
    omega
  obtain ⟨x, hloop, ⟨low, top, hx⟩, hexit⟩ := whileLoop_total _ hbody ⟨_, _, hstart⟩ hfuel
  obtain ⟨hsorted, hperm⟩ := hx.of_exit hexit
  refine ⟨x.numbers, ?_, hsorted, hperm⟩
  have hlast : intSub? (input.length : Int) 1 = some ((input.length : Int) - 1) :=
    intSub?_eq_some rfl (by unfold INT_MIN; omega) (by omega)
  simp only [sort, hlast, hloop, Option.bind_eq_bind, Option.bind_some]

/-- Both functions sort, without an access outside of the array. -/
theorem bubbleSort_sorts (numbers : List Int) (h : numbers.length ≤ INT_MAX) : ∃ sorted,
    MyProgram.bubbleSort numbers numbers.length = some sorted ∧
    SomeLibrary.bubbleSort numbers.length numbers = some sorted ∧
    sorted.Pairwise (· ≤ ·) ∧ sorted.Perm numbers := by
  obtain ⟨sorted, hsort, hsorted, hperm⟩ := exists_sort h
  exact ⟨sorted, hsort, hsort, hsorted, hperm⟩

theorem bubbleSort_sorts_three : ∃ sorted,
    MyProgram.bubbleSort [3, 1, 2] 3 = some sorted ∧ SomeLibrary.bubbleSort 3 [3, 1, 2] = some sorted ∧
    sorted.Pairwise (· ≤ ·) ∧ sorted.Perm [3, 1, 2] :=
  bubbleSort_sorts [3, 1, 2] (by decide)

end OsExercises.Sorting
