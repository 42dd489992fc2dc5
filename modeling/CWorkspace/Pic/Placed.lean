import CWorkspace.Pic.Areas

/-!
# Where the areas lie

The tops that `_try_to_get_answer_area_range` records are points of the first accepted row, in the order
of the row, unless that row begins and ends with a dot (`tops_sublist`): then its `ctx->width` ranges are the
first cells of the matrix. So every area is a stretch of that row, and the scan of an area stays inside the
coordinate array (`areas_placed`).
-/

namespace CWorkspace.Pic

/-! ### The cells of the coordinate array a scan loads -/

/-- The indices of the points in the columns of a range, from row `y` down to the row before `stop`. -/
def InWindow (r : Range) (coorWidth y stop i : ℤ) : Prop :=
  ∃ row col, y ≤ row ∧ row < stop ∧ r.fromP.x ≤ col ∧ col < r.toP.x ∧ i = row * coorWidth + col

theorem countDotInLine_reads (r : Range) (coorWidth row : ℤ) (s : ℤ × Buf ℤ Point) :
    ∀ i ∈ (countDotInLine r coorWidth row s).2.reads, i ∈ s.2.reads ∨ InWindow r coorWidth row (row + 1) i := by
  refine forLoop_stable (fun s' : ℤ × Buf ℤ Point => ∀ i ∈ s'.2.reads,
    i ∈ s.2.reads ∨ InWindow r coorWidth row (row + 1) i) (fun i hi => .inl hi) ?_
  intro n s' _ hn hs' i hi
  have hreads : i = row * coorWidth + (r.fromP.x + n) ∨ i ∈ s'.2.reads := by
    by_cases hc : (s'.2.get (row * coorWidth + (r.fromP.x + n))).c = DOT
    · simp only [Buf.load, hc, if_true] at hi
      exact List.mem_cons.1 hi
    · simp only [Buf.load, hc, if_false] at hi
      exact List.mem_cons.1 hi
  rcases hreads with rfl | hi
  · exact .inr ⟨row, r.fromP.x + n, by omega, by omega, by omega, by omega, rfl⟩
  · exact hs' i hi

theorem countDotRows_reads (r : Range) (coorWidth : ℤ) (rows : ℕ) (row total : ℤ) (c : Buf ℤ Point) :
    ∀ i ∈ (countDotRows r coorWidth rows row total c).2.reads,
      i ∈ c.reads ∨ InWindow r coorWidth row (row + rows) i := by
  induction rows generalizing row total c with
  | zero => exact fun i hi => .inl hi
  | succ rows ih =>
    intro i hi
    have hline := countDotInLine_reads r coorWidth row (0, c)
    have hdone : i ∈ (countDotInLine r coorWidth row (0, c)).2.reads →
        i ∈ c.reads ∨ InWindow r coorWidth row (row + (rows + 1 : ℕ)) i := by
      intro hi
      rcases hline i hi with h | ⟨row', col, h1, h2, h3⟩
      · exact .inl h
      · exact .inr ⟨row', col, h1, by omega, h3⟩
    unfold countDotRows at hi
    dsimp only at hi
    split_ifs at hi
    · exact hdone hi
    · rcases ih _ _ _ i hi with h | ⟨row', col, h1, h2, h3⟩
      · exact hdone h
      · exact .inr ⟨row', col, by omega, by push_cast; omega, h3⟩

theorem countDotStartWithRange_reads (r : Range) (c : Buf ℤ Point) (coorWidth coorHeight : ℤ) :
    ∀ i ∈ (countDotStartWithRange r c coorWidth coorHeight).2.reads,
      i ∈ c.reads ∨ InWindow r coorWidth r.fromP.y coorHeight i := by
  intro i hi
  rcases countDotRows_reads r coorWidth _ _ _ _ i hi with h | ⟨row, col, h1, h2, h3⟩
  · exact .inl h
  · exact .inr ⟨row, col, h1, by omega, h3⟩

theorem fromP_rowRanges_sublist (row : List Point) : ((rowRanges row).map Range.fromP).Sublist row := by
  have h : (rowRanges row).map Range.fromP = (pairs (ends Point.c row)).map Prod.fst := by
    rw [rowRanges, List.map_map]; rfl
  rw [h]
  exact (pairs_fst_sublist _).trans (ends_sublist Point.c row)

theorem placed_of_sublist {g : Grid} {y : ℕ} (hy : y < g.height) {ps : List Point} (hsub : ps.Sublist (g.row y))
    {i : ℕ} (hi : i + 1 < ps.length) : 0 ≤ ps[i].x ∧ ps[i].x < ps[i + 1].x ∧ ps[i + 1].x < g.width ∧
      0 ≤ ps[i].y ∧ ps[i].y = ps[i + 1].y ∧ ps[i + 1].y < g.height := by
  have hlt := List.pairwise_iff_getElem.1 ((g.row_pairwise y).sublist (hsub.map Point.x)) i (i + 1)
    (by rw [List.length_map]; omega) (by rw [List.length_map]; omega) (Nat.lt_succ_self i)
  rw [List.getElem_map, List.getElem_map] at hlt
  obtain ⟨a, -, ha⟩ := List.mem_map.1 (hsub.subset (List.getElem_mem (show i < ps.length by omega)))
  obtain ⟨b, hb, hb'⟩ := List.mem_map.1 (hsub.subset (List.getElem_mem hi))
  rw [← ha, ← hb'] at hlt ⊢
  have hbw := List.mem_range.1 hb
  refine ⟨?_, hlt, ?_, ?_, rfl, ?_⟩ <;> dsimp only [Grid.point] <;> omega

theorem InWindow.lt {g : Grid} {r : Range} {y i : ℤ} (h : InWindow r g.width y g.height i) (hy : 0 ≤ y)
    (hleft : 0 ≤ r.fromP.x) (hright : r.toP.x < g.width) : 0 ≤ i ∧ i < g.width * g.height := by
  obtain ⟨row, col, h1, h2, h3, h4, rfl⟩ := h
  have hmul : (row + 1) * (g.width : ℤ) ≤ g.height * g.width :=
    Int.mul_le_mul_of_nonneg_right (by omega) (Int.natCast_nonneg _)
  have hpos : 0 ≤ row * (g.width : ℤ) := Int.mul_nonneg (by omega) (Int.natCast_nonneg _)
  rw [Int.add_mul, Int.one_mul, Int.mul_comm (g.height : ℤ)] at hmul
  exact ⟨by omega, by omega⟩

section
variable {g : Grid} {coordinate : Buf ℤ Point} (hshow : g.Shows coordinate) {heap : Heap}
  (hseq : heap.seq = fun _ _ => zeroUnit) {k y : ℕ} (hy : y < g.height) (hacc : dotRuns (g.row y) = k)
  (hfirst : ∀ y' < y, dotRuns (g.row y') ≠ k)
include hshow hseq hy hacc hfirst

section
variable (hends : dotEnds (g.row y) = false)
include hends

theorem first_cells : (List.range k).map (scanRows heap coordinate g.width g.height k).ctx.data.get =
    rowRanges (g.row y) := by
  have hlen : (rowRanges (g.row y)).length = k := by
    have := dotRuns_eq (g.row y) (g.row_colour y)
    rw [hends, Bool.toNat_false, Nat.add_zero] at this
    exact this.symm.trans hacc
  have hnone : g.accepted k y = [] := List.filter_eq_nil_iff.2 fun y' hy' => by
    simpa using hfirst y' (List.mem_range.1 hy')
  obtain ⟨rest, hrest⟩ := g.colLineRanges_prefix heap.seq k (show y + 1 ≤ g.height from hy)
  have hstart : g.colLineRanges heap.seq k (y + 1) = rowRanges (g.row y) := by
    rw [g.colLineRanges_succ, if_pos hacc, hseq, storedRanges_zero, Grid.colLineRanges, hnone]
    rfl
  rw [hstart] at hrest
  refine List.ext_getElem (by simp [hlen]) fun j hj hj' => ?_
  rw [List.getElem_map, List.getElem_range, scanRows_eq hshow heap k (Nat.le_refl _), Buf.get_storeAll,
    if_neg (Nat.not_lt_zero _), Nat.sub_zero, ← hrest, List.getElem?_append_left hj',
    List.getElem?_eq_getElem hj', Option.getD_some]

theorem tops_sublist {ctx : Context} (hwidth : ctx.width = k)
    (hcells : ∀ i < k, ctx.data.get i = (scanRows heap coordinate g.width g.height k).ctx.data.get i) :
    ((recorded ctx.data.get ctx.width ctx.height ctx.width).map fun col => (ctx.data.get col).fromP).Sublist
      (g.row y) := by
  have hcells' : (List.range k).map (fun col => (ctx.data.get col).fromP) =
      (rowRanges (g.row y)).map Range.fromP := by
    rw [← first_cells hshow hseq hy hacc hfirst hends, List.map_map]
    exact List.map_congr_left fun i hi => congrArg Range.fromP (hcells i (List.mem_range.1 hi))
  have hsub := fromP_rowRanges_sublist (g.row y)
  rw [← hcells', ← hwidth] at hsub
  exact (List.filter_sublist.map _).trans hsub

end

/-- The areas written lie in the first accepted row, one behind the other. -/
theorem areas_placed (hblank : g.dot 0 y = false) (hk : 1 ≤ k) {ctx : Context} (hwidth : ctx.width = k)
    (hcells : ∀ i < k, ctx.data.get i = (scanRows heap coordinate g.width g.height k).ctx.data.get i)
    (topHeap : ℕ → Point) (areaHeap : ℕ → Range) :
    let areas := (tryToGetAnswerAreaRange topHeap ctx (Buf.malloc areaHeap)).2
    let n := areas.stores.length
    n ≤ k - 1 ∧ areas.stores.map Prod.fst = List.range n ∧
    (∀ i < n, 0 ≤ (areas.get i).fromP.x ∧ (areas.get i).fromP.x < (areas.get i).toP.x ∧
      (areas.get i).toP.x < g.width ∧ 0 ≤ (areas.get i).fromP.y ∧
      (areas.get i).fromP.y = (areas.get i).toP.y ∧ (areas.get i).toP.y < g.height) ∧
    (∀ i, i + 1 < n → (areas.get i).toP = (areas.get (i + 1)).fromP) ∧
    ∀ i < n, ∀ c : Buf ℤ Point, ∀ j ∈ (countDotStartWithRange (areas.get i) c g.width g.height).2.reads,
      j ∈ c.reads ∨ 0 ≤ j ∧ j < g.width * g.height := by
  intro areas n
  have hsub := tops_sublist hshow hseq hy hacc hfirst (by rw [g.dotEnds_row, hblank, Bool.false_and]) hwidth hcells
  have hspec : areas = (Buf.malloc areaHeap).storeAll 0 (between _) :=
    (tryToGetAnswerAreaRange_spec topHeap ctx (Buf.malloc areaHeap)).2
  have hle := length_recorded_le ctx.data.get ctx.width ctx.height ctx.width
  rw [← List.length_map fun col => (ctx.data.get col).fromP] at hle
  set tops := (recorded ctx.data.get ctx.width ctx.height ctx.width).map fun col => (ctx.data.get col).fromP
  have hn : n = tops.length - 1 := by
    rw [← length_between, show n = areas.stores.length from rfl, hspec, Buf.stores_storeAll]
    simp [Buf.stores]
  clear_value tops
  have hget : ∀ i (hi : i < n), areas.get i = ⟨tops[i], tops[i + 1]⟩ := by
    intro i hi
    rw [hspec, Buf.get_storeAll, if_neg (Nat.not_lt_zero i), Nat.sub_zero, getElem?_between tops (by omega)]
    rfl
  have hplaced : ∀ i < n, 0 ≤ (areas.get i).fromP.x ∧ (areas.get i).fromP.x < (areas.get i).toP.x ∧
      (areas.get i).toP.x < g.width ∧ 0 ≤ (areas.get i).fromP.y ∧
      (areas.get i).fromP.y = (areas.get i).toP.y ∧ (areas.get i).toP.y < g.height := by
    intro i hi
    rw [hget i hi]
    exact placed_of_sublist hy hsub (by omega)
  refine ⟨by omega, ?_, hplaced, fun i hi => ?_, fun i hi c j hj => ?_⟩
  · have hindices := Buf.indices_storeAll (Buf.malloc areaHeap) 0 (between tops)
    rw [← hspec, length_between, ← hn] at hindices
    rw [hindices, List.range_eq_range']
    rfl
  · rw [hget i (by omega), hget (i + 1) hi]
  · obtain ⟨hleft, -, hright, htop, -, -⟩ := hplaced i hi
    exact (countDotStartWithRange_reads _ c _ _ j hj).imp_right fun h => h.lt htop hleft hright

end

theorem areas_placed_endedBars : ∃ areas, (tryToGetAnswerAreaRange zeroHeap.top
      (scanRows zeroHeap endedBars.coordinate endedBars.width endedBars.height 5).ctx (Buf.malloc zeroHeap.area)).2 =
        areas ∧
    areas.stores.length = 4 ∧ (areas.get 3).fromP.x < (areas.get 3).toP.x ∧ (areas.get 3).toP.x < 22 ∧
      (areas.get 3).toP.y < 9 ∧ (areas.get 2).toP = (areas.get 3).fromP := by
  have hacc : dotRuns (endedBars.row 0) = 5 := by decide +kernel
  have hwidth : (scanRows zeroHeap endedBars.coordinate endedBars.width endedBars.height 5).ctx.width = 5 := by
    decide +kernel
  have hlen : (tryToGetAnswerAreaRange zeroHeap.top
      (scanRows zeroHeap endedBars.coordinate endedBars.width endedBars.height 5).ctx
      (Buf.malloc zeroHeap.area)).2.stores.length = 4 := by decide +kernel
  have h := @areas_placed endedBars _ endedBars.shows_coordinate zeroHeap rfl 5 0 (by decide) hacc
    (fun _ h => absurd h (Nat.not_lt_zero _)) (by decide) (by decide) _ hwidth (fun _ _ => Eq.refl _) zeroHeap.top
    zeroHeap.area
  dsimp only at h
  generalize (tryToGetAnswerAreaRange zeroHeap.top (scanRows zeroHeap endedBars.coordinate endedBars.width
    endedBars.height 5).ctx (Buf.malloc zeroHeap.area)).2 = areas at h hlen ⊢
  rw [hlen] at h
  obtain ⟨-, -, hplaced, hshared, -⟩ := h
  obtain ⟨-, horder, hright, -, -, hbottom⟩ := hplaced 3 (by decide)
  exact ⟨areas, rfl, hlen, horder, hright, hbottom, hshared 2 (by decide)⟩

end CWorkspace.Pic
