import OsExercises.Lib.PlainPbm
import OsExercises.Life.Frames

/-!
# Reading the frames back

The raster that `write_field` prints has a line break before every 76th digit, wherever the rows end, and
the first of them is what separates the height from the raster. A reader of the plain format gets the size
and every cell of the field back (`writeField_shows`).
-/

namespace OsExercises.Life
open PlainPbm

variable {s : Size}

/-- The image is the field, as `get_value_field` reads it. -/
structure Shows (image : Image) (heap : Heap s) (f : FieldPtr) : Prop where
  width : (image.width : Int) = s.width
  height : (image.height : Int) = s.height
  pixel : ∀ x y : Nat, x < s.width → y < s.height →
    image.pixel x y = some (getValueField heap (some f) x y)

theorem area_eq (s : Size) : s.area = s.width.toNat * s.height.toNat :=
  Int.toNat_mul (by have := s.width_pos; omega) (by have := s.height_pos; omega)

/-! ### The raster -/

def lineBreak (i : Nat) : Bytes := if i % 76 = 0 then ascii "\n" else []

def rasterText (data : Data s) : Bytes :=
  (List.finRange s.area).flatMap fun i => lineBreak i.1 ++ [digit (data i).toNat]

theorem isSpace_lineBreak (i : Nat) : ∀ b ∈ lineBreak i, isSpace b = true := by
  unfold lineBreak
  split_ifs
  · exact List.forall_mem_singleton.mpr rfl
  · exact List.forall_mem_nil _

theorem pbm_eq (data : Data s) : pbm data = ascii "P1" ++ (ascii "\n" ++ decimal s.width.toNat ++
    (ascii " " ++ decimal s.height.toNat ++ rasterText data)) := by
  have hmagic : ascii "P1\n" = ascii "P1" ++ ascii "\n" := rfl
  have hdigit : ∀ b : Bool, UInt8.ofNat (b.toNat + 48) = digit b.toNat := by decide
  simp only [pbm, rasterText, lineBreak, hmagic, hdigit, List.append_assoc]

theorem readRaster_rasterText (data : Data s) :
    readRaster (s.width.toNat * s.height.toNat) (rasterText data) = some ((List.finRange s.area).map data, []) := by
  have hread : readRaster (List.finRange s.area).length (rasterText data ++ []) =
      some ((List.finRange s.area).map data, []) := readRaster_flatMap fun i _ => isSpace_lineBreak i.1
  rw [List.length_finRange, List.append_nil] at hread
  rwa [← area_eq]

/-- The line break before the first digit is what ends the height. -/
theorem head?_rasterText (data : Data s) : (rasterText data).head?.any isSpace = true := by
  have hpos : 0 < s.area := by
    have harea := s.area_int
    have := Int.mul_pos (Int.lt_of_lt_of_le Int.zero_lt_one s.width_pos)
      (Int.lt_of_lt_of_le Int.zero_lt_one s.height_pos)
    omega
  have hlength : 0 < (List.finRange s.area).length := by rwa [List.length_finRange]
  obtain ⟨i, l, hl⟩ := List.exists_cons_of_length_pos hlength
  have hi : i.1 = 0 := by
    have hget : (List.finRange s.area)[0]? = some i := by rw [hl]; rfl
    obtain ⟨_, hget⟩ := List.getElem?_eq_some_iff.mp hget
    rw [← hget, List.getElem_finRange, Fin.val_cast]
  rw [rasterText, hl, List.flatMap_cons, hi]
  rfl

/-! ### The image -/

theorem parse_pbm (data : Data s) : ∃ h, parse (pbm data) =
    some ⟨s.width.toNat, s.height.toNat, (List.finRange s.area).map data, h⟩ := by
  have hbreak : ∀ b ∈ ascii "\n", isSpace b = true := List.forall_mem_singleton.mpr rfl
  have hblank : ∀ b ∈ ascii " ", isSpace b = true := List.forall_mem_singleton.mpr rfl
  rw [pbm_eq, parse_eq (by decide) hbreak (by decide) hblank (head?_rasterText data)]
  exact ⟨_, readImage_eq (readRaster_rasterText data)⟩

theorem getElem?_cells (heap : Heap s) (f : FieldPtr) {x y : Nat} (hx : x < s.width) (hy : y < s.height) :
    ((List.finRange s.area).map (heap f))[x + y * s.width.toNat]? = some (getValueField heap (some f) x y) := by
  have hin : Grid.Inside s.width s.height ⟨x, y⟩ := ⟨Int.natCast_nonneg x, hx, Int.natCast_nonneg y, hy⟩
  have hindex : x + y * s.width.toNat = (Size.index ⟨x, y⟩ hin).1 := by
    have hcast : ((x + y * s.width.toNat : Nat) : Int) = x + y * s.width := by
      rw [Nat.cast_add, Nat.cast_mul, Int.toNat_of_nonneg (by omega)]
    exact (Int.toNat_natCast _).symm.trans (congrArg Int.toNat hcast)
  have hget : (List.finRange s.area)[x + y * s.width.toNat]? = some (Size.index ⟨x, y⟩ hin) := by
    refine List.getElem?_eq_some_iff.mpr ⟨?_, ?_⟩
    · rw [List.length_finRange, hindex]
      exact (Size.index ⟨x, y⟩ hin).isLt
    · rw [List.getElem_finRange]
      exact Fin.ext hindex
  rw [List.getElem?_map, hget, getValueField_eq, cells_of_inside hin]
  rfl

/-- The text that is written, whatever the number of the frame, can be read back as the size and the cells
of the field. -/
theorem writeField_shows (heap : Heap s) (f : FieldPtr) : ∃ text image,
    (∀ frame, writeField heap (some f) frame = (sprintf? 14 (golPath frame)).map fun path => [⟨path, text⟩]) ∧
      parse text = some image ∧ Shows image heap f := by
  obtain ⟨hlength, hparse⟩ := parse_pbm (heap f)
  refine ⟨_, _, fun _ => rfl, hparse, ⟨?_, ?_, fun x y hx hy => ?_⟩⟩
  · exact Int.toNat_of_nonneg (by have := s.width_pos; omega)
  · exact Int.toNat_of_nonneg (by have := s.height_pos; omega)
  · have hlt : x < s.width.toNat := by omega
    rw [Image.pixel, if_pos hlt]
    exact getElem?_cells heap f hx hy

end OsExercises.Life
