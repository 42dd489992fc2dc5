import CWorkspace.Lib.Spans
import CWorkspace.Pic.Areas
import Mathlib.Data.Nat.Find

/-!
# Printed bars

`Bars` are the five vertical bars of an answer sheet. On a row that shows exactly them the ranges are the
bars, each from the blank before it to its last dot (`rowRanges_barRow`), so a block of such rows fills
the first rows of the matrix. Whether the four areas between the bars are found depends on what follows:
the streak of the bars is only counted when a later row of the matrix ends it (`finds_areas_iff`).
-/

namespace CWorkspace.Pic

/-- Five bars, each at least three columns wide. -/
structure Bars extends Spans 5 where
  wide : ∀ k < 5, a k + 2 ≤ b k

namespace Bars
variable (bars : Bars)

/-- The area between bars `k` and `k + 1`: from the blank before the one to the blank before the other. -/
def area (y : ℕ) (k : ℕ) : Range := ⟨⟨bars.a k - 1, y, BLANK⟩, ⟨bars.a (k + 1) - 1, y, BLANK⟩⟩

theorem b_lt {width : ℕ} (hw : bars.b 4 < width) {k : ℕ} (hk : k < 5) : bars.b k < width :=
  Nat.lt_of_le_of_lt (bars.b_le (Nat.le_of_lt_succ hk) (by decide : 4 < 5)) hw

theorem edges_eq {width : ℕ} (hw : bars.b 4 + 1 < width) :
    bars.edges width = (List.range 5).flatMap (fun k => [bars.a k - 1, bars.b k]) ++ [width - 1] := by
  have hlast : ¬ bars.On (width - 1) := fun ⟨k, hk, _, h2⟩ => by
    have := bars.b_lt (Nat.lt_sub_of_add_lt hw) hk
    omega
  rw [Spans.edges, if_neg hlast]

end Bars

section
variable {g : Grid} {bars : Bars} {y : ℕ} (hw : bars.b 4 + 1 < g.width)
  (hrow : ∀ x < g.width, g.dot x y ↔ bars.On x)
include hw hrow

theorem ends_barRow : ends Point.c (g.row y) = (bars.edges g.width).map fun x => g.point x y := by
  rw [Grid.row, List.range_eq_range', ends_map_range', bars.toSpans.edges_eq g.width_pos
    fun k hk => bars.b_lt (Nat.lt_of_succ_lt hw) hk, List.range_eq_range']
  congr 1
  refine List.filter_congr fun x hx => ?_
  have hx : x < g.width := by have := List.mem_range'_1.1 hx; omega
  rw [Nat.zero_add, decide_eq_decide]
  by_cases hlast : x + 1 = g.width
  · simp [hlast]
  · have h1 := hrow x hx
    have h2 := hrow (x + 1) (by omega)
    rw [← h1, ← h2, Ne, g.point_eq_iff, Bool.eq_iff_iff]

theorem rowRanges_barRow : rowRanges (g.row y) = (List.range 5).map fun k =>
    ⟨g.point (bars.a k - 1) y, g.point (bars.b k) y⟩ := by
  rw [rowRanges, ends_barRow hw hrow, bars.edges_eq hw, List.map_append, List.map_flatMap]
  rw [show ((List.range 5).flatMap fun k => [bars.a k - 1, bars.b k].map fun x => g.point x y) =
    (List.range 5).flatMap fun k => [g.point (bars.a k - 1) y, g.point (bars.b k) y] from rfl]
  rw [List.map_singleton, pairs_flatMap_append _ _ _ (by rw [List.length_singleton]), List.map_map]
  rfl

theorem dotRuns_barRow : dotRuns (g.row y) = 5 := by
  have hfirst : ¬ g.dot 0 y := fun h => by
    obtain ⟨k, hk, h1, -⟩ := (hrow 0 g.width_pos).1 h
    have := bars.a_pos hk
    omega
  rw [dotRuns_eq _ (g.row_colour y), rowRanges_barRow hw hrow, g.dotEnds_row, List.length_map, List.length_range]
  simp [hfirst]

end

/-- The rows from `y0` to `y1` show exactly the bars, and no row above has as many runs. -/
structure ShowsBars (g : Grid) (bars : Bars) (y0 y1 : ℕ) : Prop where
  right : bars.b 4 + 1 < g.width
  bottom : y1 ≤ g.height
  tall : y0 + 5 ≤ y1
  rows : ∀ y, y0 ≤ y → y < y1 → ∀ x < g.width, g.dot x y ↔ bars.On x
  above : ∀ y < y0, dotRuns (g.row y) ≠ 5

namespace ShowsBars
variable {g : Grid} {bars : Bars} {y0 y1 : ℕ} (h : ShowsBars g bars y0 y1)
include h

theorem accepted_eq {m : ℕ} (hm : y0 + m ≤ y1) : g.accepted 5 (y0 + m) = List.range' y0 m := by
  induction m with
  | zero =>
    refine List.filter_eq_nil_iff.2 fun y hy => ?_
    simpa using h.above y (List.mem_range.1 hy)
  | succ m ih =>
    rw [← Nat.add_assoc, g.accepted_succ, ih (by omega),
      if_pos (dotRuns_barRow h.right (h.rows (y0 + m) (by omega) (by omega))), List.range'_concat, Nat.one_mul]

variable {heap : Heap} (hzero : heap.seq = fun _ _ => zeroUnit)
include hzero

theorem length_stored {m : ℕ} (hm : y0 + m ≤ y1) : (g.colLineRanges heap.seq 5 (y0 + m)).length = m * 5 := by
  rw [Grid.colLineRanges, h.accepted_eq hm, hzero, List.length_flatMap]
  have hfive : ∀ y ∈ List.range' y0 m, (storedRanges (fun _ => zeroUnit) (g.row y)).length = 5 := by
    intro y hy
    have := List.mem_range'_1.1 hy
    rw [storedRanges_zero, rowRanges_barRow h.right (h.rows y (by omega) (by omega)), List.length_map,
      List.length_range]
  rw [List.map_congr_left hfive, List.map_const', List.sum_replicate_nat, List.length_range']

theorem cell_eq {m k : ℕ} (hm : y0 + m < y1) (hk : k < 5) : g.cell heap (m * 5 + k) =
    ⟨g.point (bars.a k - 1) (y0 + m), g.point (bars.b k) (y0 + m)⟩ := by
  have hrow := h.rows (y0 + m) (by omega) hm
  obtain ⟨rest, hrest⟩ := g.colLineRanges_prefix heap.seq 5 (p := y0 + m + 1) (q := g.height)
    (Nat.le_trans hm h.bottom)
  have hlen := h.length_stored hzero (Nat.le_of_lt hm)
  rw [Grid.cell, Grid.stored, ← hrest, g.colLineRanges_succ, if_pos (dotRuns_barRow h.right hrow),
    List.append_assoc, List.getElem?_append_right (by omega), hlen, Nat.add_sub_cancel_left, hzero,
    storedRanges_zero, rowRanges_barRow h.right hrow, List.getElem?_append_left (by simpa using hk)]
  simp [hk]

theorem bold {k : ℕ} (hk : k < 5) : boldEnough (g.cell heap k) := by
  have hcell := h.cell_eq hzero (m := 0) (k := k) (by have := h.tall; omega) hk
  rw [Nat.zero_mul, Nat.zero_add] at hcell
  have h1 := bars.wide k hk
  have h2 := bars.a_pos hk
  rw [hcell, boldEnough, decide_eq_true_eq]
  show (bars.b k : ℤ) - (bars.a k - 1 : ℕ) > 2
  omega

theorem hit_bars {m : ℕ} (hm : y0 + m < y1) : hit (g.cell heap) 5 0 m := by
  have htop := h.cell_eq hzero (m := 0) (k := 0) (by omega) (by decide)
  have hcell := h.cell_eq hzero hm (k := 0) (by decide)
  rw [Nat.zero_mul, Nat.zero_add, Nat.add_zero] at htop
  rw [hit, htop, hcell, aligned, decide_eq_true_eq]
  refine ⟨rfl, rfl, ?_⟩
  show ((y0 + m : ℕ) : ℤ) - (y0 : ℕ) = m
  omega

/-- The bars are long enough, so it only matters that something ends their streak. -/
theorem streakEnds_iff : StreakEnds (g.cell heap) 5 g.lines ↔
    ∃ m, y1 - y0 ≤ m ∧ m < g.lines ∧ hit (g.cell heap) 5 0 m = false := by
  have htall := h.tall
  constructor
  · rintro ⟨m, -, hm, hmiss, -⟩
    refine ⟨m, Nat.le_of_not_lt fun hlt => ?_, hm, hmiss⟩
    rw [h.hit_bars hzero (m := m) (by omega)] at hmiss
    exact absurd hmiss (by decide)
  · intro hex
    -- the first row that ends the streak
    obtain ⟨hm1, hm2, hm3⟩ := Nat.find_spec hex
    refine ⟨Nat.find hex, by omega, hm2, hm3, fun j hj1 hj2 => ?_⟩
    rcases Nat.lt_or_ge j (y1 - y0) with hj | hj
    · exact h.hit_bars hzero (by omega)
    · have hmin := Nat.find_min hex hj2
      cases hhit : hit (g.cell heap) 5 0 j
      · exact absurd ⟨hj, Nat.lt_trans hj2 hm2, hhit⟩ hmin
      · rfl

theorem between_tops : between ((List.range 5).map fun col => (g.cell heap col).fromP) =
    (List.range 4).map (bars.area y0) := by
  have htop : ∀ k < 5, (g.cell heap k).fromP = ⟨(bars.a k : ℤ) - 1, y0, BLANK⟩ := by
    intro k hk
    have hy : y0 < y1 := by have := h.tall; omega
    have hpos := bars.a_pos hk
    have hcell := h.cell_eq hzero (m := 0) (k := k) (by omega) hk
    rw [Nat.zero_mul, Nat.zero_add, Nat.add_zero] at hcell
    have hlt : bars.a k - 1 < g.width := by
      have := bars.b_lt (Nat.lt_of_succ_lt h.right) hk
      have := bars.wide k hk
      omega
    have hblank : ¬ g.dot (bars.a k - 1) y0 := fun hd =>
      bars.on_before hk ((h.rows y0 (Nat.le_refl _) hy _ hlt).1 hd)
    have hcast : ((bars.a k - 1 : ℕ) : ℤ) = bars.a k - 1 := by omega
    rw [hcell, Grid.point, if_neg hblank, hcast]
  rw [List.map_congr_left fun k hk => htop k (List.mem_range.1 hk)]
  rfl

end ShowsBars

/-- The four areas between the bars are found exactly if a later row of the matrix ends the streak of the
first bar. -/
theorem finds_areas_iff {g : Grid} {coordinate : Buf ℤ Point} (hshow : g.Shows coordinate) {heap : Heap}
    (hzero : heap.seq = fun _ _ => zeroUnit) {bars : Bars} {y0 y1 : ℕ} (h : ShowsBars g bars y0 y1) :
    (recognize heap coordinate g.width g.height).answerAreaRangeArr.stores =
        (List.range 4).map (fun k => (k, bars.area y0 k)) ↔
      ∃ m, y1 - y0 ≤ m ∧ m < g.lines ∧ hit (g.cell heap) 5 0 m = false := by
  have hrec := length_recorded_iff (g.cell heap) 5 g.lines (by decide)
  rw [← h.streakEnds_iff hzero, recognize_areas hshow, Buf.stores_storeAll]
  constructor
  · intro hstores
    have hlen := congrArg List.length hstores
    have hle := length_recorded_le (g.cell heap) 5 g.lines 5
    rw [List.length_append, List.length_map, List.length_zipIdx, length_between, List.length_map,
      List.length_map, List.length_range] at hlen
    refine (hrec.1 ?_).2
    simp only [Buf.stores, Buf.malloc_writes, List.reverse_nil, List.length_nil] at hlen
    omega
  · intro hends
    have hall := hrec.2 ⟨fun k hk => h.bold hzero hk, hends⟩
    have heq : recorded (g.cell heap) 5 g.lines 5 = List.range 5 :=
      List.filter_sublist.eq_of_length (by rw [List.length_range]; exact hall)
    rw [heq, h.between_tops hzero]
    rfl

/-- Five bars three columns wide, one column apart. -/
def thinBars : Bars where
  a k := 4 * k + 1
  b k := 4 * k + 3
  left _ := Nat.le_refl 1
  ordered _ _ := by omega
  gap _ _ := by omega
  wide _ _ := Nat.le_refl _

def barsGrid (height : ℕ) : Grid := ⟨21, height, by decide, fun x _ => thinBars.On x⟩

/-- The row of dots below the bars has ranges of another width, so it ends their streak. -/
theorem finds_areas_iff_endedBars : (recognize zeroHeap endedBars.coordinate 22 9).answerAreaRangeArr.stores =
    (List.range 4).map fun k => (k, thinBars.area 0 k) := by
  have hbars : ShowsBars endedBars thinBars 0 5 :=
    ⟨by decide, by decide, by decide, by decide, fun _ h => absurd h (Nat.not_lt_zero _)⟩
  exact (finds_areas_iff endedBars.shows_coordinate rfl hbars).2 ⟨5, by decide, by decide +kernel, by decide +kernel⟩

/-- Nothing below the bars: their streak is never counted. -/
theorem barsGrid_areas_missed : ShowsBars (barsGrid 5) thinBars 0 5 ∧
    (recognize zeroHeap (barsGrid 5).coordinate 21 5).answerAreaRangeArr.stores ≠
      (List.range 4).map fun k => (k, thinBars.area 0 k) :=
  ⟨⟨by decide, by decide, by decide, fun _ _ _ _ _ => decide_eq_true_iff, fun _ h => absurd h (Nat.not_lt_zero _)⟩,
    by decide⟩

end CWorkspace.Pic
