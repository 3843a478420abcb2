import OsExercises.Lib.Atoi

/-!
# Plain PBM images

A reader of the plain format for bitmaps: the magic number `P1`, the width and the height in decimal, each
after white space, and behind more white space a digit for each pixel, row by row. Among the pixels white
space has no meaning, so that lines may be broken anywhere.
-/

namespace OsExercises.PlainPbm

structure Image where
  width : Nat
  height : Nat
  /-- The rows, one after the other. -/
  raster : List Bool
  length_raster : raster.length = width * height

def Image.pixel (image : Image) (x y : Nat) : Option Bool :=
  if x < image.width then image.raster[x + y * image.width]? else none

/-- A number, which white space separates from what is before it. -/
def readNumber (s : Bytes) : Option (Nat × Bytes) :=
  let number := s.dropWhile isSpace
  let digits := number.takeWhile isDigit
  if s.takeWhile isSpace ≠ [] ∧ digits ≠ [] then some (digitsValue digits, number.dropWhile isDigit) else none

/-- `n` pixels, and what is behind them. -/
def readRaster : Nat → Bytes → Option (List Bool × Bytes)
  | 0, s => some ([], s)
  | _ + 1, [] => none
  | n + 1, b :: s =>
    if isSpace b then readRaster (n + 1) s
    else if b = digit 0 then (readRaster n s).map fun r => (false :: r.1, r.2)
    else if b = digit 1 then (readRaster n s).map fun r => (true :: r.1, r.2)
    else none

variable {n width height : Nat} {s rest : Bytes} {raster : List Bool}

theorem length_of_readRaster (h : readRaster n s = some (raster, rest)) : raster.length = n := by
  induction s generalizing n raster with
  | nil =>
    cases n with
    | zero =>
      cases h
      rfl
    | succ n => cases h
  | cons b s ih =>
    cases n with
    | zero =>
      cases h
      rfl
    | succ n =>
      have hmap : ∀ bit, ((readRaster n s).map fun r => (bit :: r.1, r.2)) = some (raster, rest) →
          raster.length = n + 1 := by
        intro bit h
        obtain ⟨⟨l, s'⟩, hread, heq⟩ := Option.map_eq_some_iff.mp h
        cases heq
        rw [List.length_cons, ih hread]
      rw [readRaster] at h
      split_ifs at h
      · exact ih h
      · exact hmap false h
      · exact hmap true h

def readImage (width height : Nat) (s : Bytes) : Option Image :=
  match h : readRaster (width * height) s with
  | some (raster, rest) =>
    if rest.all isSpace then some ⟨width, height, raster, length_of_readRaster h⟩ else none
  | none => none

def parse : Bytes → Option Image
  | 80 :: 49 :: s => do
    let (width, s) ← readNumber s
    let (height, s) ← readNumber s
    if s.head?.any isSpace then readImage width height s else none
  | _ => none

/-! ### What a writer has to keep -/

variable {sep : Bytes}

theorem readNumber_decimal (hne : sep ≠ []) (hsep : ∀ b ∈ sep, isSpace b = true)
    (hrest : ∀ b ∈ rest.head?, isDigit b = false) : readNumber (sep ++ decimal n ++ rest) = some (n, rest) := by
  obtain ⟨d, ds, hd⟩ := List.exists_cons_of_ne_nil (decimal_ne_nil (n := n))
  have hdigits := isDigit_decimal n
  have hspace : isSpace d = false := isSpace_of_isDigit (hdigits d (by rw [hd]; exact List.mem_cons_self))
  have hnumber : (decimal n ++ rest).dropWhile isSpace = decimal n ++ rest := by
    rw [hd]
    exact List.dropWhile_cons_of_neg (by rw [hspace]; exact Bool.false_ne_true)
  have htake : rest.takeWhile isDigit = [] := by
    cases rest with
    | nil => rfl
    | cons b rest => exact List.takeWhile_cons_of_neg (by rw [hrest b rfl]; exact Bool.false_ne_true)
  have hdrop : rest.dropWhile isDigit = rest := by
    cases rest with
    | nil => rfl
    | cons b rest => exact List.dropWhile_cons_of_neg (by rw [hrest b rfl]; exact Bool.false_ne_true)
  have hfront : (sep ++ decimal n ++ rest).takeWhile isSpace ≠ [] := by
    rw [List.append_assoc, List.takeWhile_append_of_pos hsep]
    exact List.append_ne_nil_of_left_ne_nil hne _
  have hback : (sep ++ decimal n ++ rest).dropWhile isSpace = decimal n ++ rest := by
    rw [List.append_assoc, List.dropWhile_append_of_pos hsep, hnumber]
  have hread : (decimal n ++ rest).takeWhile isDigit = decimal n := by
    rw [List.takeWhile_append_of_pos hdigits, htake, List.append_nil]
  have hleft : (decimal n ++ rest).dropWhile isDigit = rest := by
    rw [List.dropWhile_append_of_pos hdigits, hdrop]
  simp only [readNumber, hback, hread, hleft, digitsValue_decimal]
  exact if_pos ⟨hfront, decimal_ne_nil⟩

theorem readRaster_space (hsep : ∀ b ∈ sep, isSpace b = true) :
    readRaster (n + 1) (sep ++ s) = readRaster (n + 1) s := by
  induction sep with
  | nil => rfl
  | cons b sep ih =>
    obtain ⟨hb, hsep⟩ := List.forall_mem_cons.mp hsep
    rw [List.cons_append, readRaster, if_pos hb, ih hsep]

theorem readRaster_bit (bit : Bool) :
    readRaster (n + 1) (digit bit.toNat :: s) = (readRaster n s).map fun r => (bit :: r.1, r.2) := by
  cases bit <;> rfl

/-- White space before a pixel is ignored, whatever decides where it stands. -/
theorem readRaster_flatMap {ι : Type*} {l : List ι} {sep : ι → Bytes} {bit : ι → Bool}
    (hsep : ∀ i ∈ l, ∀ b ∈ sep i, isSpace b = true) :
    readRaster l.length ((l.flatMap fun i => sep i ++ [digit (bit i).toNat]) ++ s) = some (l.map bit, s) := by
  induction l with
  | nil =>
    rw [List.length_nil, readRaster]
    rfl
  | cons i l ih =>
    obtain ⟨hi, hsep⟩ := List.forall_mem_cons.mp hsep
    rw [List.flatMap_cons, List.append_assoc, List.append_assoc, List.length_cons, readRaster_space hi,
      List.singleton_append, readRaster_bit, ih hsep]
    rfl

theorem readImage_eq (h : readRaster (width * height) s = some (raster, [])) :
    readImage width height s = some ⟨width, height, raster, length_of_readRaster h⟩ := by
  unfold readImage
  split
  · next hread =>
    obtain ⟨rfl, rfl⟩ := Prod.mk.inj (Option.some.inj (h.symm.trans hread))
    rfl
  · next hread => cases h.symm.trans hread

theorem parse_eq {a b : Bytes} (ha : a ≠ []) (ha' : ∀ c ∈ a, isSpace c = true) (hb : b ≠ [])
    (hb' : ∀ c ∈ b, isSpace c = true) (hs : s.head?.any isSpace = true) :
    parse (ascii "P1" ++ (a ++ decimal width ++ (b ++ decimal height ++ s))) = readImage width height s := by
  have hnot : ∀ c, isSpace c = true → isDigit c = false := by
    intro c hc
    by_contra hdigit
    cases hc.symm.trans (isSpace_of_isDigit (eq_true_of_ne_false hdigit))
  have hwidth : readNumber (a ++ decimal width ++ (b ++ decimal height ++ s)) =
      some (width, b ++ decimal height ++ s) := by
    refine readNumber_decimal ha ha' fun c hc => hnot c (hb' c ?_)
    rw [List.append_assoc, List.head?_append_of_ne_nil b hb] at hc
    exact List.mem_of_mem_head? hc
  have hheight : readNumber (b ++ decimal height ++ s) = some (height, s) := by
    refine readNumber_decimal hb hb' fun c hc => hnot c ?_
    rwa [Option.mem_def.mp hc, Option.any_some] at hs
  have hparse : parse (ascii "P1" ++ (a ++ decimal width ++ (b ++ decimal height ++ s))) =
      (readNumber (a ++ decimal width ++ (b ++ decimal height ++ s))).bind fun r =>
        (readNumber r.2).bind fun q => if q.2.head?.any isSpace then readImage r.1 q.1 q.2 else none := rfl
  rw [hparse, hwidth, Option.bind_some, hheight, Option.bind_some, if_pos hs]

end OsExercises.PlainPbm
