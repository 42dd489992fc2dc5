import CWorkspace.Pic.Layout
import CWorkspace.Pic.Units

/-!
# The blocks of the scan

`rowProcessor` allocates `length / 2 + 1` units for a row and `main` `allocMemCount` ranges for the image; nothing
checks that they are enough. `ScanInBlocks` says of a run that they were. On an image that is a matter of how often
its rows change their colour and of how many ranges they yield (`scanInBlocks_iff`).
-/

namespace CWorkspace.Pic

/-- The units that `_locate_col_line_coord_range` loads, two in each round. -/
def locateLoads (seqLen : ℕ) : List ℕ := (List.range (seqLen / 2 + 1)).flatMap fun j => [2 * j, 2 * j + 1]

theorem mem_locateLoads {seqLen i : ℕ} : i ∈ locateLoads seqLen ↔ i ≤ 2 * (seqLen / 2) + 1 := by
  simp only [locateLoads, List.mem_flatMap, List.mem_range, List.mem_cons, List.not_mem_nil, or_false]
  constructor
  · rintro ⟨j, hj, rfl | rfl⟩ <;> omega
  · intro h
    exact ⟨i / 2, by omega, by omega⟩

/-- The units that are stored for a row, and those that are loaded if it is accepted, are in its block. -/
def UnitsInBlock (seqHeap : ℕ → ColorSeqUnit) (row : Buf ℕ Point) (length ctxWidth : ℕ) : Prop :=
  let q := getBwContinuousSeqOfRow row length (Buf.malloc seqHeap)
  (∀ c ∈ q.2.writes, c.1 < length / 2 + 1) ∧
    (isColLineRow q.2 q.1 ctxWidth → ∀ i ∈ locateLoads q.1, i < length / 2 + 1)

instance (seqHeap : ℕ → ColorSeqUnit) (row : Buf ℕ Point) (length ctxWidth : ℕ) :
    Decidable (UnitsInBlock seqHeap row length ctxWidth) := inferInstanceAs (Decidable (_ ∧ _))

theorem unitsInBlock_iff (seqHeap : ℕ → ColorSeqUnit) (row : Buf ℕ Point) {n : ℕ} (hn : 1 ≤ n) (k : ℕ) :
    UnitsInBlock seqHeap row n k ↔ colourChanges row n ≤ n / 2 ∧
      (dotRuns (points row n) = k → colourChanges row n % 2 = 0 → colourChanges row n < n / 2) := by
  have hstores : (∀ c ∈ (getBwContinuousSeqOfRow row n (Buf.malloc seqHeap)).2.writes, c.1 < n / 2 + 1) ↔
      colourChanges row n ≤ n / 2 := by
    rw [← written_below_iff row hn seqHeap]
    exact (List.forall_mem_map (f := Prod.fst) (P := (· < n / 2 + 1))).symm
  have haccept := isColLineRow_getBw row hn seqHeap k
  unfold UnitsInBlock
  dsimp only at haccept ⊢
  rw [hstores, haccept, getBw_index row hn, beq_iff_eq, eq_comm (a := k)]
  refine and_congr_right fun hle => forall_congr' fun _ => ?_
  simp only [mem_locateLoads]
  constructor
  · intro h heven
    have := h _ (Nat.le_refl _)
    omega
  · intro h i hi
    rcases Nat.mod_two_eq_zero_or_one (colourChanges row n) with heven | hodd
    · have := h heven
      omega
    · omega

/-- Every row stays in its units, and every range is stored into `ctx->data`. -/
def ScanInBlocks (heap : Heap) (coordinate : Buf ℤ Point) (width height : ℕ) : Prop :=
  (∀ y < height,
    UnitsInBlock (heap.seq y) (rowAt coordinate width (Buf.malloc heap.coordRow) y) width 5) ∧
    ∀ c ∈ (scanRows heap coordinate width height 5).ctx.data.stores, c.1 < allocMemCount height

instance (heap : Heap) (coordinate : Buf ℤ Point) (width height : ℕ) :
    Decidable (ScanInBlocks heap coordinate width height) := inferInstanceAs (Decidable (_ ∧ _))

namespace Grid
variable (g : Grid)

def changes (y : ℕ) : ℕ := (List.range (g.width - 1)).countP fun x => g.dot x y ≠ g.dot (x + 1) y

/-- Half as many changes as columns, and one fewer if five runs of dots end in the colour they began with. -/
def RowFits (y : ℕ) : Prop := g.changes y ≤ g.width / 2 ∧
  (dotRuns (g.row y) = 5 → g.changes y % 2 = 0 → g.changes y < g.width / 2)

instance : DecidablePred g.RowFits := fun _ => inferInstanceAs (Decidable (_ ∧ _))

end Grid

section
variable {g : Grid} {coordinate : Buf ℤ Point} (hshow : g.Shows coordinate)
include hshow

theorem get_rowAt_grid (coordRow : Buf ℕ Point) {x y : ℕ} (hx : x < g.width) (hy : y < g.height) :
    (rowAt coordinate g.width coordRow y).get x = g.point x y := by
  rw [get_rowAt _ _ _ hx]
  exact hshow x hx y hy

theorem points_rowAt (coordRow : Buf ℕ Point) {y : ℕ} (hy : y < g.height) :
    points (rowAt coordinate g.width coordRow y) g.width = g.row y :=
  List.map_congr_left fun _ hx => get_rowAt_grid hshow coordRow (List.mem_range.1 hx) hy

theorem colourChanges_rowAt (coordRow : Buf ℕ Point) {y : ℕ} (hy : y < g.height) :
    colourChanges (rowAt coordinate g.width coordRow y) g.width = g.changes y := by
  refine List.countP_congr fun x hx => ?_
  have hx := List.mem_range.1 hx
  rw [get_rowAt_grid hshow coordRow (by omega) hy, get_rowAt_grid hshow coordRow (by omega) hy, decide_eq_true_eq,
    decide_eq_true_eq, Ne, Ne, g.point_eq_iff]

/-- The scan stays in its blocks exactly if no row changes its colour too often and all ranges have a cell. -/
theorem scanInBlocks_iff (heap : Heap) : ScanInBlocks heap coordinate g.width g.height ↔
    (∀ y < g.height, g.RowFits y) ∧ (g.colLineRanges heap.seq 5 g.height).length ≤ allocMemCount g.height := by
  refine and_congr (forall₂_congr fun y hy => ?_) ?_
  · rw [unitsInBlock_iff _ _ g.width_pos, colourChanges_rowAt hshow _ hy, points_rowAt hshow _ hy]
    rfl
  · exact stores_below_iff hshow heap 5 (Nat.le_refl g.height)

end

end CWorkspace.Pic
