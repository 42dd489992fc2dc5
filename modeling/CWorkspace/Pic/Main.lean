import CWorkspace.Bmp.Loaded
import CWorkspace.Pic.Answer
import CWorkspace.Pic.Bars
import CWorkspace.Pic.Layout
import CWorkspace.Pic.Marked

/-!
# From the file to the letter

`main` of `demo.c` as a whole: `bmpread` loads the bitmap, `_make_standard_coordinate` makes dots of its dark pixels,
and the rest goes by the dots. `main` checks nothing but `bmpread`, so a run gets to a letter only if its `int`s fit,
its blocks are there, and all it loads is in them and was written (`main_eq_ok_iff`). Then the letter depends on nothing
but the dark pixels of the picture (`main_same`), and on an answer sheet it is the marked area under the condition on
the printed dots (`main_answers_iff`).
-/

namespace CWorkspace.Pic
open Bmp

/-! ### `main` -/

structure Platform32 extends Platform where
  int_max : INT_MAX = INT32_MAX

def lp64_32 : Platform32 := ⟨lp64, rfl⟩

/-- Why there is no letter: "error!" is printed, or the run has no meaning in C. -/
inductive Stop
  | error
  | undefined
deriving DecidableEq

/-- An `int` and what consists of `int`s. -/
def sizeofPoint : ℕ := 12
def sizeofRange : ℕ := 24
def sizeofColorSeqUnit : ℕ := 16

/-- `Malloc(type, n)`: the size is a `size_t`, and there is a block of it. -/
def Given (p : Platform32) (mem : Memory) (n sizeofType : ℕ) : Prop :=
  n * sizeofType ≤ p.SIZE_MAX ∧ mem.gives (n * sizeofType)

instance (p : Platform32) (mem : Memory) (n sizeofType : ℕ) : Decidable (Given p mem n sizeofType) :=
  inferInstanceAs (Decidable (_ ∧ _))

/-- `main` up to the coordinate array; `stale` is what this happens to contain. -/
def loadCoordinate (p : Platform32) (mem : Memory) (stale : ℤ → Point) (bmpFile : Option (List UInt8)) :
    Except Stop (BmpreadT × CoordState) :=
  match bmpread p.toPlatform mem bmpFile (BMPREAD_TOP_DOWN ||| BMPREAD_ANY_SIZE ||| BMPREAD_BYTE_ALIGN) with
  | none => .error .error
  | some bmp =>
    if (∀ n ∈ ints bmp.width bmp.height, FitsInt n) ∧ Given p mem (bmp.width * bmp.height) sizeofPoint then
      .ok (bmp, makeStandardCoordinate bmp.rgbData.cells bmp.width bmp.height (Buf.malloc stale))
    else .error .undefined

/-- The blocks of the rest of `main`: the ranges, a row, its units, the tops and the areas. -/
def BlocksGiven (p : Platform32) (mem : Memory) (width height : ℕ) : Prop :=
  Given p mem (allocMemCount height) sizeofRange ∧ Given p mem width sizeofPoint ∧
    Given p mem (width / 2 + 1) sizeofColorSeqUnit ∧ Given p mem 5 sizeofPoint ∧ Given p mem 4 sizeofRange

instance (p : Platform32) (mem : Memory) (width height : ℕ) : Decidable (BlocksGiven p mem width height) :=
  inferInstanceAs (Decidable (_ ∧ _))

/-- The points that are counted are in the coordinate array. -/
def PointsInArray (heap : Heap) (coordinate : Buf ℤ Point) (width height : ℕ) : Prop :=
  ∀ i ∈ (recognize heap coordinate width height).mark.coordinate.reads, 0 ≤ i ∧ i < (width : ℤ) * height

instance (heap : Heap) (coordinate : Buf ℤ Point) (width height : ℕ) :
    Decidable (PointsInArray heap coordinate width height) := inferInstanceAs (Decidable (∀ _ ∈ _, _))

/-- What `main` has after its steps. -/
structure MainState where
  bmp : BmpreadT
  coord : CoordState
  recognized : Recognized

def main (p : Platform32) (mem : Memory) (heap : Heap) (stale : ℤ → Point) (bmpFile : Option (List UInt8)) :
    Except Stop MainState := do
  let (bmp, coord) ← loadCoordinate p mem stale bmpFile
  if BlocksGiven p mem bmp.width bmp.height ∧ ReadsWritten heap coord.coordinate bmp.width bmp.height ∧
      PointsInArray heap coord.coordinate bmp.width bmp.height then
    return ⟨bmp, coord, recognize heap coord.coordinate bmp.width bmp.height⟩
  else throw .undefined

def printResult (areaIndex : ℕ) : Char := Char.ofNat (areaIndex + 65)

/-- The colour counts as a dot. -/
def Dark (c : Color) : Prop := 65536 * c.red.toNat + 256 * c.green.toNat + c.blue.toNat ≤ 0xaaaaaa

instance : DecidablePred Dark := fun _ => Nat.decLe _ _

def imageOf (data : List UInt8) (hw : 0 < widthOf data) : Grid :=
  ⟨widthOf data, linesOf data, hw,
    fun x y => decide (x < widthOf data ∧ y < linesOf data ∧ Dark (pictureOf data y x))⟩

theorem imageOf_congr {data data' : List UInt8} (hw : 0 < widthOf data) (hw' : 0 < widthOf data')
    (hwidth : widthOf data = widthOf data') (hlines : linesOf data = linesOf data')
    (hdark : ∀ y < linesOf data, ∀ x < widthOf data, Dark (pictureOf data y x) ↔ Dark (pictureOf data' y x)) :
    imageOf data hw = imageOf data' hw' := by
  have hdot : (fun x y => decide (x < widthOf data ∧ y < linesOf data ∧ Dark (pictureOf data y x))) =
      fun x y => decide (x < widthOf data' ∧ y < linesOf data' ∧ Dark (pictureOf data' y x)) := by
    funext x y
    rw [decide_eq_decide, ← hwidth, ← hlines]
    exact and_congr_right fun hx => and_congr_right fun hy => hdark y hy x hx
  unfold imageOf
  rw [Grid.mk.injEq]
  exact ⟨hwidth, hlines, hdot⟩

theorem reads_makeStandardCoordinate (arr : Buf ℤ byte) (width height : ℕ) (stale : ℤ → Point) :
    (makeStandardCoordinate arr width height (Buf.malloc stale)).coordinate.reads = [] := by
  refine forLoop_stable (fun s : CoordState => s.coordinate.reads = []) rfl fun row s _ _ hs => ?_
  refine forLoop_stable (fun s : CoordState => s.coordinate.reads = []) hs fun j s _ _ hs => ?_
  rw [pointStep_coordinate]
  exact hs

section
variable {data : List UInt8} {bmp : BmpreadT}
  (h : Shows (BMPREAD_TOP_DOWN ||| BMPREAD_ANY_SIZE ||| BMPREAD_BYTE_ALIGN) data bmp)
include h

theorem pixel_loaded {x y : ℕ} (hx : x < bmp.width) (hy : y < bmp.height) :
    pixel bmp.rgbData.cells bmp.width x y = if Dark (pictureOf data y x) then DOT else BLANK := by
  have hlen : rgbLen (BMPREAD_TOP_DOWN ||| BMPREAD_ANY_SIZE ||| BMPREAD_BYTE_ALIGN) bmp.width = bmp.width * 3 := rfl
  have hbyte : ∀ c < 3, bmp.rgbData.cells.get (3 * (y * bmp.width + x) + c : ℕ) =
      (pictureOf data y x).component c := by
    intro c hc
    have hget := h.get y hy x hx c hc
    rw [hlen, show y * (bmp.width * 3) + (3 * x + c) = 3 * (y * bmp.width + x) + c by ring] at hget
    exact hget
  have h0 := hbyte 0 (by omega)
  have h1 := hbyte 1 (by omega)
  have h2 := hbyte 2 (by omega)
  push_cast at h0 h1 h2
  rw [Int.add_zero] at h0
  unfold pixel
  dsimp only
  rw [h0, h1, h2, colorOf_eq]
  rfl

theorem shows_imageOf (hw : 0 < widthOf data) (coordinate : Buf ℤ Point) : (imageOf data hw).Shows
    (makeStandardCoordinate bmp.rgbData.cells bmp.width bmp.height coordinate).coordinate := by
  have hfill := filled_makeStandardCoordinate bmp.rgbData.cells bmp.width bmp.height coordinate
  intro x hx y hy
  change x < widthOf data at hx
  change y < linesOf data at hy
  have hxy : x < bmp.width ∧ y < bmp.height := by
    have hwidth := h.width
    have hheight := h.height
    omega
  have hget := hfill.2 x hxy.1 y (.inl hxy.2)
  rw [pixel_loaded h hxy.1 hxy.2, h.width] at hget
  rw [h.width]
  refine hget.trans ?_
  simp [imageOf, Grid.point, hx, hy]

end

/-! ### The whole program -/

section
variable {p : Platform32} {mem : Memory} {heap : Heap} {stale : ℤ → Point} {data : List UInt8} {bmp : BmpreadT}
  {coord : CoordState} {s : MainState}

theorem loadCoordinate_eq_ok_iff : loadCoordinate p mem stale (some data) = .ok (bmp, coord) ↔
    bmpread p.toPlatform mem (some data) (BMPREAD_TOP_DOWN ||| BMPREAD_ANY_SIZE ||| BMPREAD_BYTE_ALIGN) = some bmp ∧
      ((∀ n ∈ ints bmp.width bmp.height, FitsInt n) ∧ Given p mem (bmp.width * bmp.height) sizeofPoint) ∧
      coord = makeStandardCoordinate bmp.rgbData.cells bmp.width bmp.height (Buf.malloc stale) := by
  unfold loadCoordinate
  cases hbmp : bmpread p.toPlatform mem (some data) (BMPREAD_TOP_DOWN ||| BMPREAD_ANY_SIZE ||| BMPREAD_BYTE_ALIGN) with
  | none => exact iff_of_false (by rintro ⟨⟩) (by rintro ⟨⟨⟩, -⟩)
  | some bmp' =>
    dsimp only
    split_ifs with hfits
    · rw [Except.ok.injEq, Prod.mk.injEq, Option.some.injEq]
      constructor
      · rintro ⟨rfl, rfl⟩
        exact ⟨rfl, hfits, rfl⟩
      · rintro ⟨rfl, -, rfl⟩
        exact ⟨rfl, rfl⟩
    · refine iff_of_false (by rintro ⟨⟩) ?_
      rintro ⟨heq, hfits', -⟩
      rw [Option.some.inj heq] at hfits
      exact absurd hfits' hfits

/-- When `main` gets to a letter, and what it has then. -/
theorem main_eq_ok_iff : main p mem heap stale (some data) = .ok s ↔
    ∃ bmp coord, loadCoordinate p mem stale (some data) = .ok (bmp, coord) ∧
      (BlocksGiven p mem bmp.width bmp.height ∧ ReadsWritten heap coord.coordinate bmp.width bmp.height ∧
        PointsInArray heap coord.coordinate bmp.width bmp.height) ∧
      s = ⟨bmp, coord, recognize heap coord.coordinate bmp.width bmp.height⟩ := by
  unfold main
  cases hload : loadCoordinate p mem stale (some data) with
  | error stop => exact iff_of_false (by rintro ⟨⟩) (by rintro ⟨_, _, ⟨⟩, -⟩)
  | ok r =>
    obtain ⟨bmp, coord⟩ := r
    show (if BlocksGiven p mem bmp.width bmp.height ∧ ReadsWritten heap coord.coordinate bmp.width bmp.height ∧
      PointsInArray heap coord.coordinate bmp.width bmp.height then Except.ok _ else Except.error _) = _ ↔ _
    split_ifs with hruns
    · rw [Except.ok.injEq]
      constructor
      · rintro rfl
        exact ⟨bmp, coord, rfl, hruns, rfl⟩
      · rintro ⟨bmp', coord', heq, -, rfl⟩
        obtain ⟨rfl, rfl⟩ := Prod.mk.inj (Except.ok.inj heq)
        rfl
    · refine iff_of_false (by rintro ⟨⟩) ?_
      rintro ⟨bmp', coord', heq, hruns', -⟩
      obtain ⟨rfl, rfl⟩ := Prod.mk.inj (Except.ok.inj heq)
      exact absurd hruns' hruns

/-- Every byte that is turned into a dot or a blank was put there by the loader, each is loaded once, and the dots are
the dark pixels of the picture. -/
theorem loadCoordinate_shows_picture (h : loadCoordinate p mem stale (some data) = .ok (bmp, coord)) :
    (∀ i ∈ coord.arr.reads, bmp.rgbData.cells.Written i) ∧ coord.arr.reads.Nodup ∧
      ∀ y < linesOf data, ∀ x < widthOf data, coord.coordinate.get ((y : ℤ) * widthOf data + x) =
        ⟨x, y, if Dark (pictureOf data y x) then DOT else BLANK⟩ := by
  obtain ⟨hbmp, -, rfl⟩ := loadCoordinate_eq_ok_iff.1 h
  obtain ⟨⟨hformed, -⟩, -⟩ := bmpread_eq_some_iff.1 hbmp
  have hshows := bmpread_shows hbmp
  have hcover := covered_of_unread hshows.unread bmp.width bmp.height stale
  have hreads : (makeStandardCoordinate bmp.rgbData.cells bmp.width bmp.height (Buf.malloc stale)).arr.reads =
      ((List.range (3 * (bmp.height * bmp.width))).map Nat.cast).reverse := by
    rw [← hcover.reads, List.reverse_reverse]
  refine ⟨fun i hi => ?_, ?_, fun y hy x hx => ?_⟩
  · rw [hreads, List.mem_reverse] at hi
    obtain ⟨m, hm, rfl⟩ := List.mem_map.1 hi
    have hlt : m < bmp.height * (bmp.width * 3) := by
      have := List.mem_range.1 hm
      rwa [show bmp.height * (bmp.width * 3) = 3 * (bmp.height * bmp.width) by ring]
    have hpos : 0 < bmp.width * 3 := by
      rcases Nat.eq_zero_or_pos (bmp.width * 3) with h0 | hpos
      · rw [h0, Nat.mul_zero] at hlt
        omega
      · exact hpos
    have hdiv := Nat.div_add_mod' m (bmp.width * 3)
    have hmod := Nat.mod_lt m hpos
    refine (hshows.written m).2 ⟨m / (bmp.width * 3), (Nat.div_lt_iff_lt_mul hpos).2 hlt, ?_⟩
    rw [show rgbLen (BMPREAD_TOP_DOWN ||| BMPREAD_ANY_SIZE ||| BMPREAD_BYTE_ALIGN) bmp.width = bmp.width * 3 from rfl]
    omega
  · rw [hreads, List.nodup_reverse]
    exact List.nodup_range.map Nat.cast_injective
  · refine (shows_imageOf hshows hformed.toHeaded.widthOf_pos (Buf.malloc stale) x hx y hy).trans ?_
    simp [imageOf, Grid.point, hx, hy]

end

/-- Five rows of bars, one with a stroke in the third gap, a bottom row, a row of five dots, and a blank row. -/
def sheetDot (x y : ℕ) : Bool :=
  if y < 6 then evenBars.On x || x == 28 && y == 5 else y == 6 || y == 7 && x % 2 == 0 && x < 10

def sheet : Grid := ⟨47, 9, Nat.succ_pos 46, fun x y => decide (x < 47 ∧ y < 9 ∧ sheetDot x y)⟩

theorem sheet_dot {x y : ℕ} (hx : x < 47) (hy : y < 9) : sheet.dot x y = sheetDot x y := by
  show decide (x < 47 ∧ y < 9 ∧ sheetDot x y) = _
  simp [hx, hy]

def sheetFile (ink paper : Color) : List UInt8 := encode 47 9 fun y x => if sheetDot x y then ink else paper

theorem size_sheet : (0 < 47 ∧ 47 < 2 ^ 31) ∧ 0 < 9 ∧ 9 < 2 ^ 31 := by omega

theorem widthOf_sheetFile (ink paper : Color) : widthOf (sheetFile ink paper) = 47 :=
  (sizes_encode size_sheet.1 size_sheet.2 _).1

theorem linesOf_sheetFile (ink paper : Color) : linesOf (sheetFile ink paper) = 9 :=
  (sizes_encode size_sheet.1 size_sheet.2 _).2.1

theorem dark_sheetFile {ink paper : Color} (hink : Dark ink) (hpaper : ¬ Dark paper) {x y : ℕ} (hx : x < 47)
    (hy : y < 9) : Dark (pictureOf (sheetFile ink paper) y x) ↔ sheetDot x y := by
  rw [sheetFile, pictureOf_encode size_sheet.1 size_sheet.2 hy hx]
  split_ifs with h
  · exact iff_of_true hink h
  · exact iff_of_false hpaper h

theorem imageOf_sheetFile {ink paper : Color} (hink : Dark ink) (hpaper : ¬ Dark paper)
    (hw : 0 < widthOf (sheetFile ink paper)) : imageOf (sheetFile ink paper) hw = sheet := by
  have hdot : (fun x y => decide (x < 47 ∧ y < 9 ∧ Dark (pictureOf (sheetFile ink paper) y x))) = sheet.dot := by
    funext x y
    refine decide_eq_decide.2 (and_congr_right fun hx => and_congr_right fun hy => dark_sheetFile hink hpaper hx hy)
  unfold imageOf
  simp only [widthOf_sheetFile, linesOf_sheetFile, hdot]
  rfl

def black : Color := ⟨0, 0, 0⟩
def white : Color := ⟨255, 255, 255⟩

theorem loadCoordinate_sheetFile (ink paper : Color) (stale : ℤ → Point) : ∃ bmp coord,
    loadCoordinate lp64_32 staleMemory stale (some (sheetFile ink paper)) = .ok (bmp, coord) := by
  have hformed : WellFormed (BMPREAD_TOP_DOWN ||| BMPREAD_ANY_SIZE ||| BMPREAD_BYTE_ALIGN) (sheetFile ink paper) :=
    wellFormed_encode size_sheet.1 size_sheet.2 (by decide)
  have hints : ∀ n ∈ ints 47 9, FitsInt n := (ints_fit_iff (by constructor <;> omega)).2 (by omega)
  refine ⟨_, _, loadCoordinate_eq_ok_iff.2 ⟨bmpread_eq_some_iff.2 ⟨⟨hformed, hformed.toHeaded.supports fun _ => rfl⟩,
    rfl⟩, ?_, rfl⟩⟩
  dsimp only
  rw [widthOf_sheetFile, linesOf_sheetFile]
  exact ⟨hints, by decide, rfl⟩

theorem loadCoordinate_shows_picture_sheetFile : ∃ bmp coord,
    loadCoordinate lp64_32 staleMemory (fun _ => ⟨7, 7, 7⟩) (some (sheetFile black white)) = .ok (bmp, coord) ∧
      (∀ i ∈ coord.arr.reads, bmp.rgbData.cells.Written i) ∧ coord.arr.reads.Nodup ∧
      coord.coordinate.get (5 * 47 + 28) = ⟨28, 5, DOT⟩ ∧ coord.coordinate.get (5 * 47 + 27) = ⟨27, 5, BLANK⟩ := by
  obtain ⟨bmp, coord, hload⟩ := loadCoordinate_sheetFile black white fun _ => ⟨7, 7, 7⟩
  obtain ⟨hwritten, honce, hpoints⟩ := loadCoordinate_shows_picture hload
  have hpoint : ∀ y : ℕ, y < 9 → ∀ x : ℕ, x < 47 → coord.coordinate.get ((y : ℤ) * 47 + x) =
      ⟨x, y, if sheetDot x y then DOT else BLANK⟩ := by
    intro y hy x hx
    have h := hpoints y (by rw [linesOf_sheetFile]; exact hy) x (by rw [widthOf_sheetFile]; exact hx)
    rw [widthOf_sheetFile] at h
    refine h.trans ?_
    simp only [dark_sheetFile (show Dark black by decide) (show ¬ Dark white by decide) hx hy]
  exact ⟨bmp, coord, hload, hwritten, honce, hpoint 5 (by decide) 28 (by decide), hpoint 5 (by decide) 27 (by decide)⟩

section
variable {p : Platform32} {mem : Memory} {heap : Heap} {stale : ℤ → Point} {data : List UInt8} {bmp : BmpreadT}
  {coord : CoordState} {s : MainState}

theorem widthOf_pos_of_loadCoordinate (h : loadCoordinate p mem stale (some data) = .ok (bmp, coord)) :
    0 < widthOf data :=
  (bmpread_eq_some_iff.1 (loadCoordinate_eq_ok_iff.1 h).1).1.1.toHeaded.widthOf_pos

theorem shows_of_loadCoordinate (h : loadCoordinate p mem stale (some data) = .ok (bmp, coord))
    (hw : 0 < widthOf data) : (bmp.width = (imageOf data hw).width ∧ bmp.height = (imageOf data hw).height) ∧
      (imageOf data hw).Shows coord.coordinate ∧ coord.coordinate.reads = [] := by
  obtain ⟨hbmp, -, rfl⟩ := loadCoordinate_eq_ok_iff.1 h
  have hshows := bmpread_shows hbmp
  exact ⟨⟨hshows.width, hshows.height⟩, shows_imageOf hshows hw _, reads_makeStandardCoordinate _ _ _ _⟩

/-- Which files get to a letter, if units that were not written read as zero. -/
theorem main_isOk_iff (hzero : heap.seq = fun _ _ => zeroUnit) (hw : 0 < widthOf data) :
    (∃ s, main p mem heap stale (some data) = .ok s) ↔
      (∃ bmp coord, loadCoordinate p mem stale (some data) = .ok (bmp, coord)) ∧
      BlocksGiven p mem (widthOf data) (linesOf data) ∧
      ((∀ y < linesOf data, (imageOf data hw).RowFits y) ∧
        ((imageOf data hw).stored heap).length ≤ allocMemCount (linesOf data)) ∧
      5 * (imageOf data hw).lines ≤ ((imageOf data hw).stored heap).length ∧
      (∀ col < 5, boldEnough ((imageOf data hw).cell heap col)) ∧
      StreakEnds ((imageOf data hw).cell heap) 5 (imageOf data hw).lines := by
  have hruns : ∀ {bmp coord}, loadCoordinate p mem stale (some data) = .ok (bmp, coord) →
      (ReadsWritten heap coord.coordinate bmp.width bmp.height ∧
          PointsInArray heap coord.coordinate bmp.width bmp.height ↔
        ReadsWritten heap coord.coordinate (imageOf data hw).width (imageOf data hw).height) ∧
      (imageOf data hw).Shows coord.coordinate := by
    intro bmp coord hload
    obtain ⟨⟨hwidth, hheight⟩, hshow, hread⟩ := shows_of_loadCoordinate hload hw
    rw [hwidth, hheight]
    exact ⟨and_iff_left_of_imp fun h => h.points hshow hzero hread, hshow⟩
  constructor
  · rintro ⟨s, hs⟩
    obtain ⟨bmp, coord, hload, ⟨hblocks, hrun⟩, -⟩ := main_eq_ok_iff.1 hs
    obtain ⟨⟨hwidth, hheight⟩, -⟩ := shows_of_loadCoordinate hload hw
    obtain ⟨hiff, hshow⟩ := hruns hload
    rw [hwidth, hheight] at hblocks
    exact ⟨⟨bmp, coord, hload⟩, hblocks, (reads_written_iff hshow heap).1 (hiff.1 hrun)⟩
  · rintro ⟨⟨bmp, coord, hload⟩, hblocks, hfits⟩
    obtain ⟨⟨hwidth, hheight⟩, -⟩ := shows_of_loadCoordinate hload hw
    obtain ⟨hiff, hshow⟩ := hruns hload
    refine ⟨_, main_eq_ok_iff.2 ⟨bmp, coord, hload, ⟨?_, hiff.2 ((reads_written_iff hshow heap).2 hfits)⟩, rfl⟩⟩
    rw [hwidth, hheight]
    exact hblocks

/-- Two files with the same dark pixels get the same answer, whatever else is in them, wherever they are read, and
whatever was in the blocks, except that units that were not written read as zero. -/
theorem main_same {p' : Platform32} {mem' : Memory} {heap' : Heap} {stale' : ℤ → Point} {data' : List UInt8}
    {s' : MainState} (h : main p mem heap stale (some data) = .ok s)
    (h' : main p' mem' heap' stale' (some data') = .ok s') (hzero : heap.seq = fun _ _ => zeroUnit)
    (hzero' : heap'.seq = fun _ _ => zeroUnit) (hwidth : widthOf data = widthOf data')
    (hlines : linesOf data = linesOf data')
    (hdark : ∀ y < linesOf data, ∀ x < widthOf data, Dark (pictureOf data y x) ↔ Dark (pictureOf data' y x)) :
    s.recognized.Same s'.recognized := by
  obtain ⟨bmp, coord, hload, ⟨-, hreads, -⟩, rfl⟩ := main_eq_ok_iff.1 h
  obtain ⟨bmp', coord', hload', ⟨-, hreads', -⟩, rfl⟩ := main_eq_ok_iff.1 h'
  have hw := widthOf_pos_of_loadCoordinate hload
  have hw' := widthOf_pos_of_loadCoordinate hload'
  obtain ⟨⟨hbw, hbh⟩, hshow, -⟩ := shows_of_loadCoordinate hload hw
  obtain ⟨⟨hbw', hbh'⟩, hshow', -⟩ := shows_of_loadCoordinate hload' hw'
  rw [← imageOf_congr hw hw' hwidth hlines hdark] at hbw' hbh' hshow'
  dsimp only
  rw [hbw, hbh] at hreads ⊢
  rw [hbw', hbh'] at hreads' ⊢
  exact recognize_same hshow hshow' hzero hzero' hreads hreads'

end

def staleHeap : Heap where
  coordRow _ := ⟨1, 2, DOT⟩
  seq _ _ := zeroUnit
  data i := ⟨⟨i, 0, DOT⟩, ⟨i + 5, 1, BLANK⟩⟩
  top _ := ⟨3, 4, DOT⟩
  area _ := ⟨⟨6, 7, DOT⟩, ⟨8, 9, DOT⟩⟩

theorem main_sheetFile {ink paper : Color} (hink : Dark ink) (hpaper : ¬ Dark paper) (stale : ℤ → Point) (heap : Heap)
    (hzero : heap.seq = fun _ _ => zeroUnit) (hfits : 5 * sheet.lines ≤ (sheet.stored heap).length ∧
      (sheet.stored heap).length ≤ 30 ∧ (∀ col < 5, boldEnough (sheet.cell heap col)) ∧
      StreakEnds (sheet.cell heap) 5 sheet.lines) :
    ∃ s, main lp64_32 staleMemory heap stale (some (sheetFile ink paper)) = .ok s := by
  have hw : 0 < widthOf (sheetFile ink paper) := by rw [widthOf_sheetFile]; omega
  have hrows : ∀ y < 9, sheet.RowFits y := by decide +kernel
  rw [main_isOk_iff hzero hw, imageOf_sheetFile hink hpaper hw, widthOf_sheetFile, linesOf_sheetFile]
  exact ⟨loadCoordinate_sheetFile ink paper stale, by decide, ⟨hrows, hfits.2.1⟩, hfits.1, hfits.2.2⟩

theorem sheet_fits {heap : Heap} (h : (sheet.lines = 6 ∧ (sheet.stored heap).length = 30) ∧
    (∀ col < 5, boldEnough (sheet.cell heap col)) ∧ hit (sheet.cell heap) 5 0 5 = false ∧
      ∀ j < 5, 0 < j → hit (sheet.cell heap) 5 0 j) : 5 * sheet.lines ≤ (sheet.stored heap).length ∧
      (sheet.stored heap).length ≤ 30 ∧ (∀ col < 5, boldEnough (sheet.cell heap col)) ∧
      StreakEnds (sheet.cell heap) 5 sheet.lines := by
  obtain ⟨⟨hlines, hlen⟩, hbold, hmiss, hhits⟩ := h
  exact ⟨by omega, by omega, hbold, 5, Nat.le_refl 5, by omega, hmiss, fun j h0 hj => hhits j hj h0⟩

theorem sheet_fits_zeroHeap : 5 * sheet.lines ≤ (sheet.stored zeroHeap).length ∧
    (sheet.stored zeroHeap).length ≤ 30 ∧ (∀ col < 5, boldEnough (sheet.cell zeroHeap col)) ∧
      StreakEnds (sheet.cell zeroHeap) 5 sheet.lines := sheet_fits (by decide +kernel)

/-- Black on white, and almost black on almost white, read into other blocks. -/
theorem main_same_sheetFile : ∃ s s',
    main lp64_32 staleMemory zeroHeap (fun _ => zeroPoint) (some (sheetFile ⟨0, 0, 0⟩ ⟨255, 255, 255⟩)) = .ok s ∧
    main lp64_32 staleMemory staleHeap (fun _ => ⟨7, 7, 7⟩) (some (sheetFile ⟨1, 2, 3⟩ ⟨250, 251, 252⟩)) = .ok s' ∧
    s.recognized.Same s'.recognized := by
  obtain ⟨s, hs⟩ := main_sheetFile (show Dark ⟨0, 0, 0⟩ by decide) (show ¬ Dark ⟨255, 255, 255⟩ by decide)
    (fun _ => zeroPoint) zeroHeap rfl sheet_fits_zeroHeap
  obtain ⟨s', hs'⟩ := main_sheetFile (show Dark ⟨1, 2, 3⟩ by decide) (show ¬ Dark ⟨250, 251, 252⟩ by decide)
    (fun _ => ⟨7, 7, 7⟩) staleHeap rfl (sheet_fits (by decide +kernel))
  refine ⟨s, s', hs, hs', main_same hs hs' rfl rfl ?_ ?_ fun y hy x hx => ?_⟩
  · rw [widthOf_sheetFile, widthOf_sheetFile]
  · rw [linesOf_sheetFile, linesOf_sheetFile]
  · rw [linesOf_sheetFile] at hy
    rw [widthOf_sheetFile] at hx
    rw [dark_sheetFile (by decide) (by decide) hx hy, dark_sheetFile (by decide) (by decide) hx hy]

/-! ### Answer sheets -/

/-- A run that loads nothing unwritten finds the areas between the bars. -/
theorem ShowsBars.get_area {g : Grid} {coordinate : Buf ℤ Point} (hshow : g.Shows coordinate) {bars : Bars}
    {y0 y1 : ℕ} (h : ShowsBars g bars y0 y1) {heap : Heap} (hzero : heap.seq = fun _ _ => zeroUnit)
    (hreads : ReadsWritten heap coordinate g.width g.height) {k : ℕ} (hk : k < 4) :
    (recognize heap coordinate g.width g.height).answerAreaRangeArr.get k = bars.area y0 k := by
  rw [recognize_areas hshow, hreads.recorded_eq hshow, h.between_tops hzero, Buf.get_storeAll,
    if_neg (Nat.not_lt_zero k)]
  simp [hk]

/-- The area returned is the first of those with the most dots, of its bar and of its strokes. -/
theorem MarkedSheet.isFirstMax {g : Grid} {coordinate : Buf ℤ Point} (hshow : g.Shows coordinate) {bars : Bars}
    {y0 y1 mark : ℕ} (h : MarkedSheet g bars y0 y1 mark) {arr : Buf ℕ Range}
    (harr : ∀ k < 4, arr.get k = bars.area y0 k) :
    IsFirstMax (fun k => printed g bars y0 y1 k + strokes g bars y0 y1 k) 4
      (scanToCountAreaWithMostDot arr 4 coordinate g.width g.height).markedAreaIndex := by
  have hmax := scan_isFirstMax hshow arr (show 1 ≤ 4 by omega) fun k hk => by
    rw [harr k hk]
    exact bars.inside_area h.right hk y0
  refine hmax.congr fun k hk => ?_
  rw [harr k hk]
  exact h.dotsFrom_area hk

/-- The marked letter is printed exactly if the marked area is the first of those with the most dots. -/
theorem main_answers_iff {p : Platform32} {mem : Memory} {heap : Heap} {stale : ℤ → Point} {data : List UInt8}
    {s : MainState} (h : main p mem heap stale (some data) = .ok s) (hzero : heap.seq = fun _ _ => zeroUnit)
    (hw : 0 < widthOf data) {bars : Bars} {y0 y1 y2 mark : ℕ} (hbars : ShowsBars (imageOf data hw) bars y0 y1)
    (hmarked : MarkedSheet (imageOf data hw) bars y0 y2 mark) :
    printResult s.recognized.mark.markedAreaIndex = printResult mark ↔ IsFirstMax (fun k =>
      printed (imageOf data hw) bars y0 y2 k + strokes (imageOf data hw) bars y0 y2 k) 4 mark := by
  obtain ⟨bmp, coord, hload, ⟨-, hreads, -⟩, rfl⟩ := main_eq_ok_iff.1 h
  obtain ⟨⟨hwidth, hheight⟩, hshow, -⟩ := shows_of_loadCoordinate hload hw
  dsimp only
  rw [hwidth, hheight] at hreads ⊢
  have hmax := hmarked.isFirstMax hshow fun k hk => hbars.get_area hshow hzero hreads hk
  rw [← recognize_mark] at hmax
  have hletter : ∀ a < 4, ∀ b < 4, printResult a = printResult b → a = b := by decide
  constructor
  · intro heq
    rw [← hletter _ hmax.lt _ hmarked.mark_lt heq]
    exact hmax
  · intro hfirst
    rw [hmax.unique hfirst]

theorem showsBars_sheet : ShowsBars sheet evenBars 0 5 where
  right := by decide
  bottom := by decide
  tall := by decide
  rows y _ hy x hx := by
    rw [sheet_dot hx (by omega), sheetDot, if_pos (by omega)]
    simp [show y ≠ 5 by omega]
  above _ h := absurd h (Nat.not_lt_zero _)

theorem markedSheet_sheet : MarkedSheet sheet evenBars 0 6 2 where
  right := by decide
  bottom := by decide
  bar y _ hy x hx hon := by
    rw [sheet_dot hx (by omega), sheetDot, if_pos hy]
    simp [hon]
  frame x _ hx := by
    rw [sheet_dot (show x < 47 from lt_of_le_of_lt hx (by decide)) (by omega)]
    rfl
  mark_lt := by decide
  marked := ⟨5, by decide, by decide, 28, by decide, by decide, by decide⟩
  unmarked k hk hne y _ hy x h1 h2 := by
    have h1' : 10 * k + 3 < x := h1
    have h2' : x < 10 * (k + 1) + 1 := h2
    have hother : x ≠ 28 := by omega
    rw [sheet_dot (by omega) (by omega), sheetDot, if_pos hy]
    simp [evenBars.not_on_gap (show k + 1 < 5 by omega) h1 h2, hother]
  isOpen := by decide +kernel

/-- All areas count their bars, the third one the stroke as well, so it is a C. -/
theorem main_answers_iff_sheetFile : ∃ s,
    main lp64_32 staleMemory zeroHeap (fun _ => ⟨7, 7, 7⟩) (some (sheetFile black white)) = .ok s ∧
      printResult s.recognized.mark.markedAreaIndex = 'C' := by
  obtain ⟨s, hs⟩ := main_sheetFile (show Dark black by decide) (show ¬ Dark white by decide)
    (fun _ => ⟨7, 7, 7⟩) zeroHeap rfl sheet_fits_zeroHeap
  have hw : 0 < widthOf (sheetFile black white) := by rw [widthOf_sheetFile]; omega
  have himage := imageOf_sheetFile (show Dark black by decide) (show ¬ Dark white by decide) hw
  have hscore : (∀ k < 2, printed sheet evenBars 0 6 k + strokes sheet evenBars 0 6 k <
      printed sheet evenBars 0 6 2 + strokes sheet evenBars 0 6 2) ∧
    printed sheet evenBars 0 6 3 + strokes sheet evenBars 0 6 3 ≤
      printed sheet evenBars 0 6 2 + strokes sheet evenBars 0 6 2 := by decide +kernel
  refine ⟨s, hs, (main_answers_iff hs rfl hw (by rw [himage]; exact showsBars_sheet)
    (by rw [himage]; exact markedSheet_sheet)).2 ?_⟩
  rw [himage]
  refine ⟨by decide, hscore.1, fun k h2 h4 => ?_⟩
  obtain rfl : k = 3 := by omega
  exact hscore.2

end CWorkspace.Pic
