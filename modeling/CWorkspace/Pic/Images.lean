import CWorkspace.Pic.Scan

/-!
# Two images in one process

The static `offset` of `_locate_col_line_coord_range` is not reset for a new `Context`: the ranges of the
second image are stored behind as many cells as the first image has filled. Its result is the same as in a
process of its own only if one of the two images yields no range at all (`second_image_iff`).
-/

namespace CWorkspace.Pic

/-- The height, and the cells that belong to it, are the same. -/
structure SameTable (s s' : ScanState) : Prop where
  height : s.ctx.height = s'.ctx.height
  data : ∀ i < s'.ctx.height * s'.ctx.width, s.ctx.data.get i = s'.ctx.data.get i

/-- Some row of the image is accepted and yields a range. -/
def Grid.Yields (g : Grid) (seq : ℕ → ℕ → ColorSeqUnit) (ctxWidth : ℕ) : Prop :=
  ∃ y < g.height, dotRuns (g.row y) = ctxWidth ∧ storedRanges (seq y) (g.row y) ≠ []

theorem storedRanges_ne_nil (seqHeap : ℕ → ColorSeqUnit) {row : List Point} (h : 2 ≤ dotRuns row) :
    storedRanges seqHeap row ≠ [] := by
  have hlen : 2 ≤ (ends Point.c row).length := h.trans (List.countP_le_length)
  refine List.append_ne_nil_of_left_ne_nil (List.ne_nil_of_length_pos ?_) _
  rw [rowRanges, List.length_map, length_pairs]
  omega

namespace Grid
variable (g : Grid) (seq : ℕ → ℕ → ColorSeqUnit) {k : ℕ}

theorem yields_iff : g.Yields seq k ↔ g.colLineRanges seq k g.height ≠ [] := by
  rw [Yields, colLineRanges, Ne, List.flatMap_eq_nil_iff]
  push Not
  simp only [mem_accepted, and_assoc]

/-- In a table of at least two columns every accepted row yields a range. -/
theorem yields_iff_of_two_le (hk : 2 ≤ k) : g.Yields seq k ↔ ∃ y < g.height, dotRuns (g.row y) = k := by
  refine exists_congr fun y => and_congr_right fun _ => and_iff_left_of_imp ?_
  rintro rfl
  exact storedRanges_ne_nil _ hk

end Grid

theorem exists_ne_range (r : Range) : ∃ r' : Range, r' ≠ r := by
  refine ⟨⟨r.fromP, { r.toP with x := r.toP.x + 1 }⟩, fun h => ?_⟩
  have hx := congrArg (fun r : Range => r.toP.x) h
  dsimp only at hx
  omega

theorem exists_get_storeAll_ne {rs : List Range} (hrs : rs ≠ []) {off : ℕ} (hoff : 0 < off) :
    ∃ data : ℕ → Range, ((Buf.malloc data).storeAll off rs).get 0 ≠ ((Buf.malloc data).storeAll 0 rs).get 0 := by
  obtain ⟨r, rs, rfl⟩ := List.exists_cons_of_ne_nil hrs
  obtain ⟨r', hr'⟩ := exists_ne_range r
  refine ⟨fun _ => r', ?_⟩
  rw [Buf.get_storeAll, if_pos hoff, Buf.get_storeAll, if_neg (Nat.lt_irrefl 0)]
  exact hr'

/-- Processed after `a`, the image `b` gives the same table as processed alone, whatever the table contained,
exactly if the table has no columns or one of the images yields no range. -/
theorem second_image_iff {a b : Grid} {coordA coordB : Buf ℤ Point} (ha : a.Shows coordA) (hb : b.Shows coordB)
    (heapA heapB : Heap) (k : ℕ) :
    (∀ data : ℕ → Range,
      SameTable
        (processRows { heapB with data := data } coordB b.width b.height k
          (processRows heapA coordA a.width a.height k ⟨0⟩).statics)
        (processRows { heapB with data := data } coordB b.width b.height k ⟨0⟩)) ↔
    k = 0 ∨ ¬ a.Yields heapA.seq k ∨ ¬ b.Yields heapB.seq k := by
  have hafter (data : ℕ → Range) (st : Statics) :=
    processRows_eq hb { heapB with data := data } k st (Nat.le_refl b.height)
  simp only [hafter, processRows_eq ha heapA k ⟨0⟩ (Nat.le_refl a.height), Nat.zero_add]
  rw [a.yields_iff, b.yields_iff, not_not, not_not]
  constructor
  · intro h
    by_contra hc
    obtain ⟨hk, hra, hrb⟩ := not_or.1 hc |>.imp_right not_or.1
    obtain ⟨data, hdata⟩ := exists_get_storeAll_ne hrb (List.length_pos_iff.2 hra)
    have hlines : 0 < (b.accepted k b.height).length := by
      obtain ⟨y, hy, hacc, -⟩ := (b.yields_iff heapB.seq).2 hrb
      exact List.length_pos_of_mem ((b.mem_accepted).2 ⟨hy, hacc⟩)
    exact hdata ((h data).data 0 (Nat.mul_pos hlines (Nat.pos_of_ne_zero hk)))
  · rintro (rfl | hra | hrb) data
    · exact ⟨rfl, fun i hi => absurd hi (Nat.not_lt_zero i)⟩
    · rw [hra]; exact ⟨rfl, fun _ _ => rfl⟩
    · rw [hrb]; exact ⟨rfl, fun _ _ => rfl⟩

theorem second_image_iff_dotGrid : fiveDotsGrid.Yields zeroHeap.seq 5 ∧ ∀ data : ℕ → Range,
    SameTable
      (processRows { zeroHeap with data := data } fiveDotsGrid.coordinate 10 1 5
        (processRows zeroHeap dotGrid.coordinate 1 1 5 ⟨0⟩).statics)
      (processRows { zeroHeap with data := data } fiveDotsGrid.coordinate 10 1 5 ⟨0⟩) := by
  have hnone : ¬ dotGrid.Yields zeroHeap.seq 5 := by
    rintro ⟨y, hy, hruns, -⟩
    obtain rfl := Nat.lt_one_iff.1 hy
    exact absurd hruns (by decide)
  exact ⟨⟨0, by decide, by decide, storedRanges_ne_nil _ (by decide)⟩,
    (second_image_iff dotGrid.shows_coordinate fiveDotsGrid.shows_coordinate zeroHeap zeroHeap 5).2
      (.inr (.inl hnone))⟩

theorem fiveDotsGrid_twice_differs :
    ¬ SameTable
      (processRows zeroHeap fiveDotsGrid.coordinate 10 1 5
        (processRows zeroHeap fiveDotsGrid.coordinate 10 1 5 ⟨0⟩).statics)
      (processRows zeroHeap fiveDotsGrid.coordinate 10 1 5 ⟨0⟩) := by
  rintro ⟨-, hdata⟩
  exact absurd (hdata 0 (by decide)) (by decide)

end CWorkspace.Pic
