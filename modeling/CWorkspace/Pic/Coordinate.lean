import CWorkspace.Pic.Scan
import Mathlib.Tactic.Ring

/-!
# From the bytes of a bitmap to the coordinate array

`_make_standard_coordinate` turns the `rgb_data` of `bmpread` into the coordinate array, each point coloured
by its three bytes (`filled_makeStandardCoordinate`). The loader multiplies in `size_t`, the recognizer in
`int`: its products stay in range exactly for images of at most `2^31` bytes with at most 644245094 rows
(`ints_fit_iff`).
-/

namespace CWorkspace.Pic

/-- `r << 16 | g << 8 | b` -/
def toHex (r g b : byte) : ℕ := r.toNat <<< 16 ||| g.toNat <<< 8 ||| b.toNat

def colorOf (r g b : byte) : byte := if toHex r g b > 0xaaaaaa then BLANK else DOT

structure CoordState where
  arr : Buf ℤ byte
  coordinate : Buf ℤ Point

/-- The loop is `for (col = 0; col < realLenPerLine; col += 3)`, here with `col = 3 * j`. -/
def pointStep (width realLenPerLine row : ℕ) (s : CoordState) (j : ℕ) : CoordState :=
  let col := 3 * j
  let pointDataStartPos : ℤ := row * realLenPerLine + col
  let (r, arr) := s.arr.load (pointDataStartPos + 0)
  let (g, arr) := arr.load (pointDataStartPos + 1)
  let (b, arr) := arr.load (pointDataStartPos + 2)
  let xInCo := col / 3
  ⟨arr, s.coordinate.store (row * width + xInCo) ⟨xInCo, row, colorOf r g b⟩⟩

def makeStandardCoordinate (arr : Buf ℤ byte) (width height : ℕ) (coordinate : Buf ℤ Point) : CoordState :=
  let realLenPerLine := width * 3
  forLoop 0 height (fun s row => forLoop 0 width (pointStep width realLenPerLine row) s) ⟨arr, coordinate⟩

def pixel (arr : Buf ℤ byte) (width x y : ℕ) : byte :=
  let start : ℤ := 3 * (y * width + x)
  colorOf (arr.get start) (arr.get (start + 1)) (arr.get (start + 2))

theorem pointStep_coordinate (width row : ℕ) (s : CoordState) (j : ℕ) :
    (pointStep width (width * 3) row s j).coordinate =
      s.coordinate.store (row * width + j) ⟨j, row, pixel s.arr width j row⟩ := by
  have hj : 3 * j / 3 = j := by omega
  have hstart : (row : ℤ) * ((width * 3 : ℕ) : ℤ) + ((3 * j : ℕ) : ℤ) = 3 * (row * width + j) := by
    push_cast; ring
  unfold pointStep pixel
  dsimp only [Buf.load]
  rw [hj, hstart, Int.add_zero]
  rfl

theorem cell_inj {width x y x' y' : ℕ} (hx : x < width) (hx' : x' < width)
    (h : (y : ℤ) * width + x = y' * width + x') : x = x' ∧ y = y' := by
  have hnat : width * y + x = width * y' + x' := by
    have h' : y * width + x = y' * width + x' := by exact_mod_cast h
    rwa [Nat.mul_comm y, Nat.mul_comm y'] at h'
  have hmod := congrArg (· % width) hnat
  have hdiv := congrArg (· / width) hnat
  have hw : 0 < width := Nat.zero_lt_of_lt hx
  simp only [Nat.mul_add_mod, Nat.mod_eq_of_lt hx, Nat.mod_eq_of_lt hx'] at hmod
  simp only [Nat.mul_add_div hw, Nat.div_eq_of_lt hx, Nat.div_eq_of_lt hx', Nat.add_zero] at hdiv
  exact ⟨hmod, hdiv⟩

def Filled (arr : Buf ℤ byte) (width row col : ℕ) (s : CoordState) : Prop :=
  pixel s.arr = pixel arr ∧ ∀ x < width, ∀ y, y < row ∨ y = row ∧ x < col →
    s.coordinate.get ((y : ℤ) * width + x) = ⟨x, y, pixel arr width x y⟩

theorem Filled.step {arr : Buf ℤ byte} {width row col : ℕ} {s : CoordState} (hs : Filled arr width row col s)
    (hcol : col < width) : Filled arr width row (col + 1) (pointStep width (width * 3) row s col) := by
  refine ⟨hs.1, fun x hx y hxy => ?_⟩
  rw [pointStep_coordinate, Buf.get_store, hs.1]
  by_cases hcell : (y : ℤ) * width + x = row * width + col
  · obtain ⟨rfl, rfl⟩ := cell_inj hx hcol hcell
    rw [if_pos rfl]
  · rw [if_neg hcell]
    refine hs.2 x hx y ?_
    rcases hxy with hy | ⟨rfl, hxc⟩
    · exact .inl hy
    · refine .inr ⟨rfl, Nat.lt_of_le_of_ne (Nat.le_of_lt_succ hxc) ?_⟩
      rintro rfl
      exact hcell rfl

theorem Filled.row {arr : Buf ℤ byte} {width row : ℕ} {s : CoordState} (hs : Filled arr width row 0 s) :
    Filled arr width (row + 1) 0 (forLoop 0 width (pointStep width (width * 3) row) s) := by
  have hrow := forLoop_inv (f := pointStep width (width * 3) row) (Filled arr width row) (Nat.zero_le width) hs
    fun col s _ hcol hs => hs.step hcol
  refine ⟨hrow.1, fun x hx y hy => hrow.2 x hx y ?_⟩
  omega

theorem filled_makeStandardCoordinate (arr : Buf ℤ byte) (width height : ℕ) (coordinate : Buf ℤ Point) :
    Filled arr width height 0 (makeStandardCoordinate arr width height coordinate) :=
  forLoop_inv (f := fun s row => forLoop 0 width (pointStep width (width * 3) row) s)
    (s := ⟨arr, coordinate⟩) (fun row s => Filled arr width row 0 s) (Nat.zero_le height)
    ⟨rfl, fun x _ y hy => by omega⟩ fun row s _ _ hs => hs.row

/-! ### The `int` expressions -/

/-- What `bmpread` hands out: sizes that are positive `int`s, and a buffer whose size is a `size_t`. -/
structure Admitted (width height : ℕ) : Prop where
  width_pos : 1 ≤ width
  width_lt : width < 2 ^ 31
  height_pos : 1 ≤ height
  height_lt : height < 2 ^ 31
  fits_size_t : 3 * width * height < 2 ^ 64

/-- The range of a 32-bit `int`. -/
def FitsInt (n : ℤ) : Prop := -2 ^ 31 ≤ n ∧ n < 2 ^ 31

instance : DecidablePred FitsInt := fun _ => inferInstanceAs (Decidable (_ ∧ _))

def mainInts (width height : ℤ) : List ℤ :=
  [width * height, height * 2, (height * 2).tdiv 3, 5 * (height * 2).tdiv 3]

/-- For one point of `_make_standard_coordinate`; the last byte is at `pointDataStartPos + 2`. -/
def pointInts (width row j : ℤ) : List ℤ :=
  let realLenPerLine := width * 3
  let col := 3 * j
  let pointDataStartPos := row * realLenPerLine + col
  let xInCo := col.tdiv 3
  [row * realLenPerLine, pointDataStartPos, pointDataStartPos + 2, xInCo, row * width, row * width + xInCo, col + 3]

def makeStandardCoordinateInts (width height : ℕ) : List ℤ :=
  (width : ℤ) * 3 :: (List.range height).flatMap fun row : ℕ =>
    ((List.range width).flatMap fun j : ℕ => pointInts width row j) ++ [(row : ℤ) + 1]

def processByRowInts (width height : ℕ) : List ℤ :=
  (List.range height).flatMap fun row : ℕ =>
    ((List.range width).flatMap fun col : ℕ => [row * (width : ℤ), row * width + col, col + 1]) ++ [(row : ℤ) + 1]

/-- The values of the `int` expressions of one run. -/
def ints (width height : ℕ) : List ℤ :=
  mainInts width height ++ makeStandardCoordinateInts width height ++ processByRowInts width height

theorem forall_ints {width height : ℕ} {P : ℤ → Prop} :
    (∀ n ∈ ints width height, P n) ↔ (∀ n ∈ mainInts width height, P n) ∧ P (width * 3) ∧
      (∀ row < height, (∀ j < width, ∀ n ∈ pointInts width row j, P n) ∧ P (row + 1)) ∧
      ∀ row < height, (∀ col < width, P (row * width) ∧ P (row * width + col) ∧ P (col + 1)) ∧ P (row + 1) := by
  simp only [ints, makeStandardCoordinateInts, processByRowInts, List.forall_mem_append, List.forall_mem_cons,
    List.forall_mem_flatMap, List.mem_range, List.not_mem_nil, false_imp_iff, implies_true, and_true, and_assoc]

theorem row_end_le (width : ℕ) {height row : ℕ} (hrow : row < height) :
    (row : ℤ) * width + width ≤ width * height := by
  have h : (row + 1) * width ≤ height * width := Nat.mul_le_mul_right _ hrow
  rw [Nat.add_mul, Nat.one_mul, Nat.mul_comm height] at h
  exact_mod_cast h

theorem mainInts_fit_iff {width height : ℕ} : (∀ n ∈ mainInts width height, FitsInt n) ↔
    width * height < 2 ^ 31 ∧ height ≤ 644245094 := by
  have hthird : ((height : ℤ) * 2).tdiv 3 = height * 2 / 3 := Int.tdiv_eq_ediv_of_nonneg (by omega)
  simp only [mainInts, List.forall_mem_cons, List.not_mem_nil, false_imp_iff, implies_true, and_true, hthird,
    FitsInt, ← Nat.cast_mul]
  generalize width * height = size
  omega

theorem pointInts_bounds {width height row j : ℕ} (hrow : row < height) (hj : j < width) :
    ∀ n ∈ pointInts width row j, 0 ≤ n ∧ n ≤ 3 * (width * height) := by
  have hend := row_end_le width hrow
  have hcol : (3 * (j : ℤ)).tdiv 3 = j := Int.mul_tdiv_cancel_left _ (by decide)
  have hline : (row : ℤ) * (width * 3) = 3 * (row * width) := by ring
  have hpos : 0 ≤ (row : ℤ) * width := Int.mul_nonneg (Int.natCast_nonneg _) (Int.natCast_nonneg _)
  simp only [pointInts, List.forall_mem_cons, hcol, hline, List.not_mem_nil, false_imp_iff, implies_true]
  refine ⟨?_, ?_, ?_, ?_, ?_, ?_, ?_, trivial⟩ <;> omega

/-- No `int` expression leaves its range exactly if the image has at most `2^31` bytes and 644245094 rows. -/
theorem ints_fit_iff {width height : ℕ} (hadm : Admitted width height) :
    (∀ n ∈ ints width height, FitsInt n) ↔ 3 * width * height ≤ 2 ^ 31 ∧ height ≤ 644245094 := by
  obtain ⟨hw, -, hh, -, -⟩ := hadm
  have hbytes : ((3 * width * height : ℕ) : ℤ) = 3 * (width * height) := by push_cast; ring
  rw [forall_ints, mainInts_fit_iff]
  constructor
  · rintro ⟨⟨-, hheight⟩, -, hpoints, -⟩
    -- the last byte of the last point
    have hlast := (hpoints (height - 1) (by omega)).1 (width - 1) (by omega)
    have hbyte := hlast ((height - 1 : ℕ) * (width * 3) + 3 * (width - 1 : ℕ) + 2) (by simp [pointInts])
    have hval : ((height - 1 : ℕ) : ℤ) * (width * 3) + 3 * (width - 1 : ℕ) + 2 = 3 * (width * height) - 1 := by
      rw [Nat.cast_sub hh, Nat.cast_sub hw]; push_cast; ring
    rw [hval] at hbyte
    exact ⟨by have := hbyte.2; omega, hheight⟩
  · rintro ⟨hsize, hheight⟩
    have hwidth : width ≤ width * height := Nat.le_mul_of_pos_right _ hh
    have hrows : height ≤ width * height := Nat.le_mul_of_pos_left _ hw
    -- no multiple of three is `2^31`
    have hfits : ∀ n : ℤ, 0 ≤ n → n ≤ 3 * (width * height) → FitsInt n := fun n h0 hn =>
      ⟨by omega, by omega⟩
    have hrow : ∀ row < height, FitsInt (row + 1) := fun row hlt => hfits _ (by omega) (by omega)
    refine ⟨⟨by omega, hheight⟩, hfits _ (by omega) (by omega), fun row hlt => ⟨fun j hj n hn => ?_, hrow row hlt⟩,
      fun row hlt => ⟨fun col hcol => ?_, hrow row hlt⟩⟩
    · obtain ⟨h0, hle⟩ := pointInts_bounds hlt hj n hn
      exact hfits n h0 hle
    · have hend := row_end_le width hlt
      have hpos : 0 ≤ (row : ℤ) * width := Int.mul_nonneg (Int.natCast_nonneg _) (Int.natCast_nonneg _)
      exact ⟨hfits _ (by omega) (by omega), hfits _ (by omega) (by omega), hfits _ (by omega) (by omega)⟩

theorem ints_fit_iff_small : Admitted 640 480 ∧ ∀ n ∈ ints 640 480, FitsInt n := by
  have hadm : Admitted 640 480 := ⟨by decide, by decide, by decide, by decide, by decide⟩
  exact ⟨hadm, (ints_fit_iff hadm).2 ⟨by decide, by decide⟩⟩

theorem large_image_overflows : ¬ (Admitted 30000 30000 → ∀ n ∈ ints 30000 30000, FitsInt n) := by
  intro h
  have hints := h ⟨by decide, by decide, by decide, by decide, by decide⟩
  rw [forall_ints] at hints
  have hbyte := ((hints.2.2.1 29999 (by decide)).1 0 (by decide)) (29999 * (30000 * 3)) (by simp [pointInts])
  exact absurd hbyte.2 (by decide)

end CWorkspace.Pic
