import CWorkspace.Pic.Count
import CWorkspace.Pic.Placed

/-!
# Runs that load nothing unwritten

In a run that stays in its blocks and loads only ranges that were stored (`ReadsWritten`) all five columns are
recorded, and the four areas are stretches of the first accepted row (`ReadsWritten.areas`). So the count loads only
points of the image (`ReadsWritten.points`), and what the run computes is a matter of the image alone, whatever was in
the blocks it was handed (`recognize_same`).
-/

namespace CWorkspace.Pic

/-! ### The points loaded -/

theorem markStep_arr (coorWidth coorHeight : ℤ) (s : MarkState) (i : ℕ) :
    (markStep coorWidth coorHeight s i).answerAreaRangeArr.get = s.answerAreaRangeArr.get ∧
      (markStep coorWidth coorHeight s i).coordinate =
        (countDotStartWithRange (s.answerAreaRangeArr.get i) s.coordinate coorWidth coorHeight).2 := by
  unfold markStep
  dsimp only
  split_ifs <;> exact ⟨rfl, rfl⟩

/-- Only points in the windows of the areas are loaded. -/
theorem scanToCountAreaWithMostDot_points (arr : Buf ℕ Range) {count : ℕ} (hcount : 1 ≤ count)
    (coordinate : Buf ℤ Point) (coorWidth coorHeight : ℤ) :
    ∀ i ∈ (scanToCountAreaWithMostDot arr count coordinate coorWidth coorHeight).coordinate.reads,
      i ∈ coordinate.reads ∨ ∃ k < count, InWindow (arr.get k) coorWidth (arr.get k).fromP.y coorHeight i := by
  have h := forLoop_inv (fun n (s : MarkState) => s.answerAreaRangeArr.get = arr.get ∧
      ∀ i ∈ s.coordinate.reads, i ∈ coordinate.reads ∨
        ∃ k < n, InWindow (arr.get k) coorWidth (arr.get k).fromP.y coorHeight i)
    hcount (f := markStep coorWidth coorHeight)
    (s := ⟨0, (countDotStartWithRange (arr.get 0) coordinate coorWidth coorHeight).1, (arr.load 0).2,
      (countDotStartWithRange (arr.get 0) coordinate coorWidth coorHeight).2⟩) ⟨rfl, fun i hi => ?_⟩ ?_
  · exact h.2
  · exact (countDotStartWithRange_reads _ _ _ _ i hi).imp_right fun h => ⟨0, Nat.one_pos, h⟩
  · rintro n s - - ⟨harr, hs⟩
    obtain ⟨harr', hcoord⟩ := markStep_arr coorWidth coorHeight s n
    refine ⟨harr'.trans harr, fun i hi => ?_⟩
    rw [hcoord, harr] at hi
    rcases countDotStartWithRange_reads _ _ _ _ i hi with hi | hi
    · exact (hs i hi).imp_right fun ⟨k, hk, h⟩ => ⟨k, Nat.lt_succ_of_lt hk, h⟩
    · exact .inr ⟨n, Nat.lt_succ_self n, hi⟩

namespace Grid
variable (g : Grid)

def tops : List Point := ((g.colLineRanges (fun _ _ => zeroUnit) 5 g.height).take 5).map Range.fromP

theorem exists_first_accepted (h : 0 < g.lines) :
    ∃ y < g.height, dotRuns (g.row y) = 5 ∧ ∀ y' < y, dotRuns (g.row y') ≠ 5 := by
  obtain ⟨y, hy⟩ := List.exists_mem_of_length_pos h
  have hex : ∃ y, y < g.height ∧ dotRuns (g.row y) = 5 := ⟨y, g.mem_accepted.1 hy⟩
  obtain ⟨hlt, hacc⟩ := Nat.find_spec hex
  exact ⟨Nat.find hex, hlt, hacc, fun y' hy' hacc' => Nat.find_min hex hy' ⟨Nat.lt_trans hy' hlt, hacc'⟩⟩

end Grid

namespace ReadsWritten
variable {g : Grid} {coordinate : Buf ℤ Point} {heap : Heap}
  (h : ReadsWritten heap coordinate g.width g.height) (hshow : g.Shows coordinate)
include h hshow

theorem length_stored : 5 < (g.stored heap).length := by
  obtain ⟨-, hlen, -, m, hm5, hm, -⟩ := (reads_written_iff hshow heap).1 h
  omega

theorem recorded_eq : recorded (g.cell heap) 5 g.lines 5 = List.range 5 := by
  obtain ⟨-, -, hbold, hends⟩ := (reads_written_iff hshow heap).1 h
  exact List.filter_sublist.eq_of_length
    (by rw [List.length_range]; exact (length_recorded_iff _ 5 _ (by decide)).2 ⟨hbold, hends⟩)

variable (hzero : heap.seq = fun _ _ => zeroUnit)
include hzero

theorem dotEnds_eq {y : ℕ} (hy : y < g.height) (hacc : dotRuns (g.row y) = 5) : dotEnds (g.row y) = false := by
  obtain ⟨-, hlen, -⟩ := (reads_written_iff hshow heap).1 h
  have hcount := g.length_colLineRanges 5 g.height
  rw [Grid.stored, hzero, Grid.lines] at hlen
  have hnil : g.dotEnded 5 g.height = [] := List.length_eq_zero_iff.1 (by omega)
  exact Bool.eq_false_iff.2 (g.dotEnded_eq_nil_iff.1 hnil y hy hacc)

theorem map_cell : (List.range 5).map (fun col => (g.cell heap col).fromP) = g.tops := by
  have hlen := h.length_stored hshow
  rw [Grid.tops, ← hzero, ← Grid.stored]
  refine List.ext_getElem (by simp; omega) fun i hi _ => ?_
  have hi : i < (g.stored heap).length := by
    rw [List.length_map, List.length_range] at hi
    omega
  simp [Grid.cell, hi]

theorem areas : (recognize heap coordinate g.width g.height).answerAreaRangeArr =
    (Buf.malloc heap.area).storeAll 0 (between g.tops) := by
  rw [recognize_areas hshow, h.recorded_eq hshow, h.map_cell hshow hzero]

theorem length_tops : g.tops.length = 5 := by
  rw [← h.map_cell hshow hzero, List.length_map, List.length_range]

theorem tops_in_row : ∃ y < g.height, g.tops.Sublist (g.row y) := by
  obtain ⟨-, -, -, m, -, hm, -⟩ := (reads_written_iff hshow heap).1 h
  obtain ⟨y, hy, hacc, hfirst⟩ := g.exists_first_accepted (Nat.zero_lt_of_lt hm)
  set ctx : Context := ⟨5, g.lines, (Buf.malloc heap.data).storeAll 0 (g.stored heap)⟩ with hctx
  have hcells : ∀ i < 5, ctx.data.get i = (scanRows heap coordinate g.width g.height 5).ctx.data.get i := fun i _ => by
    rw [scanRows_eq hshow heap 5 (Nat.le_refl g.height)]
    rfl
  have hsub := tops_sublist hshow hzero hy hacc hfirst (h.dotEnds_eq hshow hzero hy hacc) rfl hcells
  rw [hctx, g.get_stored, h.recorded_eq hshow, h.map_cell hshow hzero] at hsub
  exact ⟨y, hy, hsub⟩

theorem get_areas {k : ℕ} (hk : k < 4) : ∃ hlt : k + 1 < g.tops.length,
    (recognize heap coordinate g.width g.height).answerAreaRangeArr.get k = ⟨g.tops[k], g.tops[k + 1]⟩ := by
  have hlen := h.length_tops hshow hzero
  refine ⟨by omega, ?_⟩
  rw [h.areas hshow hzero, Buf.get_storeAll, if_neg (Nat.not_lt_zero k), Nat.sub_zero,
    getElem?_between g.tops (by omega)]
  rfl

theorem inside_areas {k : ℕ} (hk : k < 4) :
    g.Inside ((recognize heap coordinate g.width g.height).answerAreaRangeArr.get k) := by
  obtain ⟨y, hy, hsub⟩ := h.tops_in_row hshow hzero
  obtain ⟨hlt, hget⟩ := h.get_areas hshow hzero hk
  obtain ⟨hleft, horder, hright, htop, -⟩ := placed_of_sublist hy hsub hlt
  rw [hget]
  exact ⟨hleft, Int.le_of_lt horder, Int.le_of_lt hright, htop⟩

theorem points (hread : coordinate.reads = []) :
    ∀ i ∈ (recognize heap coordinate g.width g.height).mark.coordinate.reads, 0 ≤ i ∧ i < g.width * g.height := by
  intro i hi
  rw [recognize_mark] at hi
  have hloads := scanToCountAreaWithMostDot_points _ (by decide) _ _ _ i hi
  rw [hread] at hloads
  obtain ⟨k, hk, hwindow⟩ := hloads.resolve_left List.not_mem_nil
  obtain ⟨y, hy, hsub⟩ := h.tops_in_row hshow hzero
  obtain ⟨hlt, hget⟩ := h.get_areas hshow hzero hk
  obtain ⟨hleft, -, hright, htop, -⟩ := placed_of_sublist hy hsub hlt
  rw [hget] at hwindow
  exact hwindow.lt htop hleft hright

end ReadsWritten

/-! ### Two runs on one image -/

/-- The same rows are accepted, the same ranges and areas stored, and the same area is returned, with the same count. -/
structure Recognized.Same (r r' : Recognized) : Prop where
  height : r.scan.ctx.height = r'.scan.ctx.height
  ranges : r.scan.ctx.data.stores = r'.scan.ctx.data.stores
  areas : r.answerAreaRangeArr.stores = r'.answerAreaRangeArr.stores
  count : r.mark.totalDotCountOfArea = r'.mark.totalDotCountOfArea
  index : r.mark.markedAreaIndex = r'.mark.markedAreaIndex

theorem recognize_same {g : Grid} {coordinate coordinate' : Buf ℤ Point} (hshow : g.Shows coordinate)
    (hshow' : g.Shows coordinate') {heap heap' : Heap} (hzero : heap.seq = fun _ _ => zeroUnit)
    (hzero' : heap'.seq = fun _ _ => zeroUnit) (h : ReadsWritten heap coordinate g.width g.height)
    (h' : ReadsWritten heap' coordinate' g.width g.height) :
    (recognize heap coordinate g.width g.height).Same (recognize heap' coordinate' g.width g.height) := by
  set arr := (recognize heap coordinate g.width g.height).answerAreaRangeArr with harr
  set arr' := (recognize heap' coordinate' g.width g.height).answerAreaRangeArr with harr'
  have hget : ∀ k < 4, arr'.get k = arr.get k := fun k hk => by
    obtain ⟨_, heq⟩ := h.get_areas hshow hzero hk
    obtain ⟨_, heq'⟩ := h'.get_areas hshow' hzero' hk
    rw [harr, harr', heq, heq']
  obtain ⟨hmax, htotal⟩ := scan_spec hshow arr (show 1 ≤ 4 by decide) fun k hk => h.inside_areas hshow hzero hk
  obtain ⟨hmax', htotal'⟩ := scan_spec hshow' arr' (show 1 ≤ 4 by decide) fun k hk => h'.inside_areas hshow' hzero' hk
  have hindex := hmax.unique (hmax'.congr fun k hk => by rw [hget k hk])
  have hcount := htotal.trans (congrArg _ (by dsimp only; rw [← hindex, hget _ hmax.lt]) |>.trans htotal'.symm)
  rw [harr, ← recognize_mark, harr', ← recognize_mark] at hindex
  refine ⟨?_, ?_, ?_, ?_, hindex⟩
  · rw [recognize_ctx hshow, recognize_ctx hshow']
  · rw [recognize_ctx hshow, recognize_ctx hshow', Buf.stores_storeAll, Buf.stores_storeAll, Grid.stored, Grid.stored,
      hzero, hzero']
    rfl
  · rw [← harr, ← harr', harr, harr', h.areas hshow hzero, h'.areas hshow' hzero', Buf.stores_storeAll,
      Buf.stores_storeAll]
    rfl
  · rw [recognize_mark, recognize_mark]
    exact hcount

end CWorkspace.Pic
