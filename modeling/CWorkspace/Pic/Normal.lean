import CWorkspace.Lib.Spans
import CWorkspace.Pic.Units

/-!
# The ranges of a row that begins with a blank

In such a row every dot run has a blank run before it, so each is the second of a pair of runs whatever the row
ends with: the row yields one range for each dot run (`rowProcessor_normal`).
-/

namespace CWorkspace.Pic

/-- A two-coloured row of `n` points on the line `y`, the first of them a blank. -/
structure NormalRow (row : Buf ℕ Point) (n : ℕ) (y : ℤ) : Prop where
  place : ∀ x < n, (row.get x).x = x ∧ (row.get x).y = y
  colour : ∀ x < n, (row.get x).c = DOT ∨ (row.get x).c = BLANK
  blank : (row.get 0).c = BLANK

/-- The dots of the row are the positions in the intervals. -/
structure Shown {k : ℕ} (dots : Spans k) (row : Buf ℕ Point) (n : ℕ) : Prop where
  inside : ∀ j < k, dots.b j < n
  dot_iff : ∀ x < n, (row.get x).c = DOT ↔ dots.On x

section
variable {row : Buf ℕ Point} {n k : ℕ} {y : ℤ} (h : NormalRow row n y) {dots : Spans k} (hdots : Shown dots row n)

include h

theorem exists_shown : ∃ (k : ℕ) (dots : Spans k), Shown dots row n := by
  have hfirst : ¬ (row.get 0).c = DOT := by rw [h.blank]; decide
  obtain ⟨k, dots, hinside, hiff⟩ := Spans.exists_spans (fun x => (row.get x).c = DOT) hfirst n
  exact ⟨k, dots, hinside, hiff⟩

theorem colour_ne_iff {x x' : ℕ} (hx : x < n) (hx' : x' < n) :
    (row.get x).c ≠ (row.get x').c ↔ ¬ ((row.get x).c = DOT ↔ (row.get x').c = DOT) := by
  rcases h.colour x hx with hc | hc <;> rcases h.colour x' hx' with hc' | hc' <;> rw [hc, hc'] <;> decide

variable (hn : 0 < n)
include hdots hn

theorem ends_points : ends Point.c (points row n) = (dots.edges n).map row.get := by
  rw [points, List.range_eq_range', ends_map_range', dots.edges_eq hn hdots.inside, List.range_eq_range']
  congr 1
  refine List.filter_congr fun x hx => ?_
  have hx : x < n := by have := List.mem_range'_1.1 hx; omega
  rw [Nat.zero_add, decide_eq_decide]
  by_cases hlast : x + 1 = n
  · simp [hlast]
  · rw [colour_ne_iff h hx (by omega), hdots.dot_iff x hx, hdots.dot_iff (x + 1) (by omega)]

/-- From the point just left of each dot run to its last point. -/
theorem rowRanges_points : rowRanges (points row n) =
    (List.range k).map fun j => ⟨row.get (dots.a j - 1), row.get (dots.b j)⟩ := by
  have hrest : ((if dots.On (n - 1) then [] else [n - 1]).map row.get).length ≤ 1 := by
    split_ifs <;> simp
  rw [rowRanges, ends_points h hdots hn, Spans.edges, List.map_append, List.map_flatMap]
  rw [show ((List.range k).flatMap fun j => [dots.a j - 1, dots.b j].map row.get) =
    (List.range k).flatMap fun j => [row.get (dots.a j - 1), row.get (dots.b j)] from rfl]
  rw [pairs_flatMap_append _ _ _ hrest, List.map_map]
  rfl

theorem dotRuns_points : dotRuns (points row n) = k := by
  have hcolour : ∀ p ∈ points row n, p.c = DOT ∨ p.c = BLANK := by
    intro p hp
    obtain ⟨x, hx, rfl⟩ := List.mem_map.1 hp
    exact h.colour x (List.mem_range.1 hx)
  have hends : dotEnds (points row n) = false := by
    rw [dotEnds, points, List.head?_map, List.head?_range, if_neg (Nat.ne_of_gt hn)]
    simp [h.blank, DOT, BLANK]
  rw [dotRuns_eq _ hcolour, rowRanges_points h hdots hn, hends, List.length_map, List.length_range]
  rfl

end

theorem NormalRow.pairwise {row : Buf ℕ Point} {n : ℕ} {y : ℤ} (h : NormalRow row n y) :
    ((points row n).map Point.x).Pairwise (· < ·) := by
  have hmap : (points row n).map Point.x = (List.range n).map Nat.cast := by
    rw [points, List.map_map]
    exact List.map_congr_left fun x hx => (h.place x (List.mem_range.1 hx)).1
  rw [hmap, List.pairwise_map]
  exact List.pairwise_lt_range.imp Int.ofNat_lt.2

theorem NormalRow.nonneg {row : Buf ℕ Point} {n : ℕ} {y : ℤ} (h : NormalRow row n y) :
    ∀ p ∈ points row n, 0 ≤ p.x := by
  intro p hp
  obtain ⟨x, hx, rfl⟩ := List.mem_map.1 hp
  rw [(h.place x (List.mem_range.1 hx)).1]
  exact Int.natCast_nonneg x

/-- A row with as many dot runs as `ctx->width` asks for appends the range of each of them, in order, and moves
the offset behind them. -/
theorem rowProcessor_normal {row : Buf ℕ Point} {n k : ℕ} {y : ℤ} (h : NormalRow row n y) (hk : 1 ≤ k)
    (hruns : ((maximalRuns (points row n)).countP fun g => g.all fun p => p.c = DOT) = k) (s : ScanState)
    (hwidth : s.ctx.width = k) : ∃ dots : Spans k, Shown dots row n ∧
      let s' := rowProcessor (fun _ => zeroUnit) row n s
      let range := fun j : ℕ => (⟨row.get (dots.a j - 1), row.get (dots.b j)⟩ : Range)
      s'.ctx.data.stores = s.ctx.data.stores ++ (List.range k).map (fun j => (s.statics.offset + j, range j)) ∧
      (∀ j < k, s'.ctx.data.get (s.statics.offset + j) = range j) ∧
      (∀ i, i < s.statics.offset ∨ s.statics.offset + k ≤ i → s'.ctx.data.get i = s.ctx.data.get i) ∧
      s'.statics.offset = s.statics.offset + k ∧ s'.ctx.height = s.ctx.height + 1 := by
  rw [← dotRuns_eq_maximalRuns] at hruns
  have hn : 0 < n := by
    rcases Nat.eq_zero_or_pos n with rfl | hpos
    · exact absurd hruns (Nat.ne_of_lt hk)
    · exact hpos
  obtain ⟨k', dots, hdots⟩ := exists_shown h
  obtain rfl : k' = k := (dotRuns_points h hdots hn).symm.trans hruns
  have hranges := rowRanges_points h hdots hn
  have hlen : (rowRanges (points row n)).length = k' := by rw [hranges, List.length_map, List.length_range]
  refine ⟨dots, hdots, ?_⟩
  rw [rowProcessor_eq _ row hn h.pairwise h.nonneg, if_pos (hruns.trans hwidth.symm)]
  simp only [storedRanges_zero, hlen, and_true]
  refine ⟨?_, fun j hj => ?_, fun i hi => ?_⟩
  · rw [hranges, Buf.stores_storeAll_range]
  · rw [Buf.get_storeAll, if_neg (by omega), Nat.add_sub_cancel_left, hranges]
    simp [hj]
  · rw [Buf.get_storeAll]
    rcases hi with hlt | hge
    · rw [if_pos hlt]
    · rw [if_neg (by omega), List.getElem?_eq_none (by omega), Option.getD_none]

def blankDotRow : Buf ℕ Point := Buf.malloc fun x => ⟨x, 7, if x % 2 = 1 then DOT else BLANK⟩

theorem normalRow_blankDotRow : NormalRow blankDotRow 4 7 :=
  ⟨by decide, by decide, by decide⟩

theorem rowProcessor_normal_blankDotRow : ∃ dots : Spans 2, Shown dots blankDotRow 4 ∧
    let s : ScanState := ⟨⟨2, 0, Buf.malloc fun _ => ⟨zeroPoint, zeroPoint⟩⟩, ⟨0⟩⟩
    let s' := rowProcessor (fun _ => zeroUnit) blankDotRow 4 s
    let range := fun j : ℕ => (⟨blankDotRow.get (dots.a j - 1), blankDotRow.get (dots.b j)⟩ : Range)
    s'.ctx.data.stores = s.ctx.data.stores ++ (List.range 2).map (fun j => (s.statics.offset + j, range j)) ∧
    (∀ j < 2, s'.ctx.data.get (s.statics.offset + j) = range j) ∧
    (∀ i, i < s.statics.offset ∨ s.statics.offset + 2 ≤ i → s'.ctx.data.get i = s.ctx.data.get i) ∧
    s'.statics.offset = s.statics.offset + 2 ∧ s'.ctx.height = s.ctx.height + 1 :=
  rowProcessor_normal normalRow_blankDotRow (by decide) (by decide) _ rfl

end CWorkspace.Pic
