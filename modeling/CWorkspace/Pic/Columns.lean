import CWorkspace.Pic.Areas

/-!
# The decision about one column

Which tops `_try_to_get_answer_area_range` records. Counter and maximum go on from one column to the
next, and a streak is folded in only by a row that ends it, so the rows of all bold columns count as one
sequence, `boldHits`, and the decision for a column depends on the columns before it
(`records_iff`, `records_fiveAligned_iff`).
-/

namespace CWorkspace.Pic

def columnLoop (topHeap : ℕ → Point) (ctx : Context) (col : ℕ) : AreaState :=
  forLoop 0 col (columnStep ctx.width ctx.height) ⟨1, 0, ctx.data, Buf.malloc topHeap, 0⟩

/-- The iteration for column `col` stores the top point of this column. -/
def Records (topHeap : ℕ → Point) (ctx : Context) (col : ℕ) : Prop :=
  (columnLoop topHeap ctx (col + 1)).areaTopPArr.stores = (columnLoop topHeap ctx col).areaTopPArr.stores ++
    [((columnLoop topHeap ctx col).areaTopPArrCount, (ctx.data.get col).fromP)]

section
variable (cell : ℕ → Range) (width height : ℕ)

/-- Five rows one below the other, the first of which may be row 0, continue the top range. -/
def FiveAligned (col : ℕ) : Prop := ∃ row, row + 4 < height ∧ ∀ j ≤ 4, hit cell width col (row + j)

/-- The rows below the tops of the bold ones among the first `cols` columns, column after column: which of
them continue the top range of their column. -/
def boldHits (cols : ℕ) : List Bool := ((List.range cols).filter fun col => boldEnough (cell col)).flatMap
  fun col => (List.range' 1 (height - 1)).map (hit cell width col)

theorem boldHits_succ (cols : ℕ) : boldHits cell width height (cols + 1) = boldHits cell width height cols ++
    if boldEnough (cell cols) then (List.range' 1 (height - 1)).map (hit cell width cols) else [] := by
  rw [boldHits, List.range_succ, List.filter_append, List.flatMap_append, ← boldHits, List.filter_singleton]
  cases boldEnough (cell cols) <;> simp

theorem columnStreak_eq_foldl (cols : ℕ) :
    columnStreak cell width height cols = (boldHits cell width height cols).foldl hitStep (1, 0) := by
  induction cols with
  | zero => rfl
  | succ cols ih =>
    rw [columnStreak, boldHits_succ, List.foldl_append, ← ih]
    split_ifs
    exacts [streak_eq_foldl, rfl]

end

/-- A column is recorded if it is bold and, in the bold columns up to it, a row that is not aligned follows
four that are. -/
theorem records_iff (topHeap : ℕ → Point) (ctx : Context) (col : ℕ) : Records topHeap ctx col ↔
    boldEnough (ctx.data.get col) ∧
      [true, true, true, true, false] <:+: boldHits ctx.data.get ctx.width ctx.height (col + 1) := by
  have hinv := areaInv_forLoop topHeap ctx col
  have hinv' := areaInv_forLoop topHeap ctx (col + 1)
  have hmax : 5 ≤ (columnStreak ctx.data.get ctx.width ctx.height (col + 1)).2 ↔
      [true, true, true, true, false] <:+: boldHits ctx.data.get ctx.width ctx.height (col + 1) := by
    rw [columnStreak_eq_foldl]
    exact foldl_hitStep_max_iff _ 4
  rw [← hmax, Records, columnLoop, columnLoop, hinv.arr, hinv'.arr, hinv.arrCount, recorded_succ]
  split_ifs with h
  · rw [List.map_append, List.map_singleton, Buf.storeAll_concat, Buf.stores_store, List.length_map,
      Nat.zero_add]
    exact iff_of_true rfl h
  · rw [List.append_nil]
    exact iff_of_false (fun heq => by simpa using congrArg List.length heq) h

/-- The decision for a column is right exactly if it is not bold, or if five rows of it are aligned exactly
when, in the bold columns up to it, a row that is not aligned follows four that are. -/
theorem records_fiveAligned_iff (topHeap : ℕ → Point) (ctx : Context) (col : ℕ) :
    (Records topHeap ctx col ↔
      boldEnough (ctx.data.get col) ∧ FiveAligned ctx.data.get ctx.width ctx.height col) ↔
    (boldEnough (ctx.data.get col) → (FiveAligned ctx.data.get ctx.width ctx.height col ↔
      [true, true, true, true, false] <:+: boldHits ctx.data.get ctx.width ctx.height (col + 1))) := by
  rw [records_iff]
  constructor
  · intro h hbold
    simp only [hbold, true_and] at h
    exact h.symm
  · intro h
    constructor
    · rintro ⟨hbold, hhits⟩
      exact ⟨hbold, (h hbold).2 hhits⟩
    · rintro ⟨hbold, hfive⟩
      exact ⟨hbold, (h hbold).1 hfive⟩

def fiveBars : Context := ⟨1, 5, Buf.malloc fun i => ⟨⟨0, i, DOT⟩, ⟨5, i, BLANK⟩⟩⟩

theorem fiveBars_not_recorded : ¬ ∀ (topHeap : ℕ → Point) (ctx : Context), 1 ≤ ctx.height →
    ∀ col < ctx.width, Records topHeap ctx col ↔
      boldEnough (ctx.data.get col) ∧ FiveAligned ctx.data.get ctx.width ctx.height col := by
  intro h
  have hfive : FiveAligned fiveBars.data.get fiveBars.width fiveBars.height 0 := by
    refine ⟨0, by decide, ?_⟩
    decide
  have hrecords := (h (fun _ => zeroPoint) fiveBars (by decide) 0 (by decide)).2 ⟨by decide, hfive⟩
  rw [records_iff] at hrecords
  exact absurd hrecords.2 (by decide)

end CWorkspace.Pic
