import CWorkspace.Lib.Streak
import CWorkspace.Pic.Blocks

/-!
# The answer areas

`_try_to_get_answer_area_range` on any contents of `ctx->data`: `recorded` are the columns whose top it
records, and `tryToGetAnswerAreaRange_spec` gives the cells it loads and the areas it stores. The maximal
streak is never reset and a streak is only folded in by a row that ends it, so all columns are recorded
exactly if all top ranges are bold and in column 0 four rows in a row go on as its top does and the next one does
not (`length_recorded_iff`).
-/

namespace CWorkspace.Pic

section
variable (cell : ℕ → Range) (width height : ℕ)

def hit (col row : ℕ) : Bool := aligned (cell col) (cell (row * width + col)) row

def columnStreak : ℕ → ℕ × ℕ
  | 0 => (1, 0)
  | col + 1 =>
    if boldEnough (cell col) then streak (hit cell width col) height (columnStreak col) else columnStreak col

def recorded (cols : ℕ) : List ℕ := (List.range cols).filter fun col =>
  boldEnough (cell col) && decide (5 ≤ (columnStreak cell width height (col + 1)).2)

/-- The cells loaded for the first `cols` columns: their tops, and below each bold one the whole column. -/
def Visited (cols i : ℕ) : Prop := ∃ col < cols, i = col ∨
  boldEnough (cell col) ∧ ∃ row, 1 ≤ row ∧ row < height ∧ i = row * width + col

theorem visited_succ (cols i : ℕ) : Visited cell width height (cols + 1) i ↔
    Visited cell width height cols i ∨ i = cols ∨
      boldEnough (cell cols) ∧ ∃ row, 1 ≤ row ∧ row < height ∧ i = row * width + cols := by
  constructor
  · rintro ⟨col, hcol, h⟩
    rcases Nat.lt_succ_iff_lt_or_eq.1 hcol with hlt | rfl
    exacts [.inl ⟨col, hlt, h⟩, .inr h]
  · rintro (⟨col, hcol, h⟩ | h)
    exacts [⟨col, by omega, h⟩, ⟨cols, by omega, h⟩]

theorem recorded_succ (cols : ℕ) : recorded cell width height (cols + 1) = recorded cell width height cols ++
    if boldEnough (cell cols) ∧ 5 ≤ (columnStreak cell width height (cols + 1)).2 then [cols] else [] := by
  rw [recorded, List.range_succ, List.filter_append, ← recorded, List.filter_singleton]
  simp [Bool.cond_eq_ite]

theorem length_recorded_le (cols : ℕ) : (recorded cell width height cols).length ≤ cols := by
  have h := List.length_filter_le (fun col =>
    boldEnough (cell col) && decide (5 ≤ (columnStreak cell width height (col + 1)).2)) (List.range cols)
  rwa [List.length_range] at h

theorem columnStreak_max_mono {c d : ℕ} (h : c ≤ d) :
    (columnStreak cell width height c).2 ≤ (columnStreak cell width height d).2 := by
  induction d, h using Nat.le_induction with
  | base => exact Nat.le_refl _
  | succ d _ ih =>
    refine Nat.le_trans ih ?_
    rw [columnStreak]
    split_ifs
    exacts [streak_max_mono, Nat.le_refl _]

/-- All columns are recorded exactly if all are bold and the first one brings the maximum up to five. -/
theorem length_recorded_iff (hw : 0 < width) : (recorded cell width height width).length = width ↔
    (∀ col < width, boldEnough (cell col)) ∧ ∃ m, 5 ≤ m ∧ m < height ∧ hit cell width 0 m = false ∧
      ∀ j, m - 5 < j → j < m → hit cell width 0 j := by
  have hall : (recorded cell width height width).length = width ↔ ∀ col < width,
      boldEnough (cell col) ∧ 5 ≤ (columnStreak cell width height (col + 1)).2 := by
    have h := List.length_filter_eq_length_iff (l := List.range width) (p := fun col =>
      boldEnough (cell col) && decide (5 ≤ (columnStreak cell width height (col + 1)).2))
    rw [List.length_range] at h
    simpa [recorded] using h
  rw [hall, ← le_streak_max_iff (by decide)]
  constructor
  · intro h
    have h0 := (h 0 hw).2
    rw [columnStreak, if_pos (h 0 hw).1] at h0
    exact ⟨fun col hcol => (h col hcol).1, h0⟩
  · rintro ⟨hbold, h0⟩ col hcol
    refine ⟨hbold col hcol, Nat.le_trans ?_ (columnStreak_max_mono cell width height (Nat.le_add_left 1 col))⟩
    rw [columnStreak, if_pos (hbold 0 hw)]
    exact h0

end

/-- The variables of the column loop after the first `cols` columns of what `data` holds. -/
structure AreaInv (topHeap : ℕ → Point) (data : Buf ℕ Range) (width height cols : ℕ) (s : AreaState) :
    Prop where
  count : (s.verticalContinuousCount, s.verticalContinuousCountMax) =
    columnStreak data.get width height cols
  loads : ∃ reads, s.data = { data with reads := reads } ∧
    ∀ i, i ∈ reads ↔ i ∈ data.reads ∨ Visited data.get width height cols i
  arr : s.areaTopPArr = (Buf.malloc topHeap).storeAll 0
    ((recorded data.get width height cols).map fun col => (data.get col).fromP)
  arrCount : s.areaTopPArrCount = (recorded data.get width height cols).length

theorem streakStep_eq (width col row : ℕ) (data : Buf ℕ Range) (top : Range) (reads : List ℕ)
    (s : AreaState) (hs : s.data = { data with reads := reads }) :
    streakStep width col top s row =
      let c := hitStep (s.verticalContinuousCount, s.verticalContinuousCountMax)
        (aligned top (data.get (row * width + col)) row)
      { s with
        verticalContinuousCount := c.1
        verticalContinuousCountMax := c.2
        data := { data with reads := (row * width + col) :: reads } } := by
  have hget : s.data.get (row * width + col) = data.get (row * width + col) := by rw [hs, Buf.get_reads]
  unfold streakStep hitStep
  simp only [Buf.load_fst, Buf.load_snd, hget]
  cases hhit : aligned top (data.get (row * width + col)) row <;> simp [hs]

theorem streakStep_forLoop (width height col : ℕ) (data : Buf ℕ Range) (top : Range) (reads : List ℕ)
    (s : AreaState) (hs : s.data = { data with reads := reads }) : ∃ reads',
    (∀ i, i ∈ reads' ↔ i ∈ reads ∨ ∃ row, 1 ≤ row ∧ row < height ∧ i = row * width + col) ∧
    ∀ c, streak (fun row => aligned top (data.get (row * width + col)) row) height
        (s.verticalContinuousCount, s.verticalContinuousCountMax) = c →
      forLoop 1 height (streakStep width col top) s = { s with
        verticalContinuousCount := c.1
        verticalContinuousCountMax := c.2
        data := { data with reads := reads' } } := by
  have hnone : ∀ h ≤ 1, ∀ i, i ∈ reads ↔ i ∈ reads ∨ ∃ row, 1 ≤ row ∧ row < h ∧ i = row * width + col := by
    intro h hh i
    refine ⟨.inl, ?_⟩
    rintro (h | ⟨row, h1, h2, -⟩)
    exacts [h, by omega]
  rcases Nat.le_total height 1 with hh | hh
  · refine ⟨reads, hnone height hh, fun c hc => ?_⟩
    rw [streak_of_le hh] at hc
    rw [forLoop_of_le hh, ← hc, ← hs]
  · induction height, hh using Nat.le_induction with
    | base =>
      refine ⟨reads, hnone 1 (Nat.le_refl 1), fun c hc => ?_⟩
      rw [streak_of_le (Nat.le_refl 1)] at hc
      rw [forLoop_of_le (Nat.le_refl 1), ← hc, ← hs]
    | succ n hn ih =>
      obtain ⟨reads', hreads', heq⟩ := ih
      refine ⟨(n * width + col) :: reads', fun i => ?_, fun c hc => ?_⟩
      · rw [List.mem_cons, hreads']
        constructor
        · rintro (rfl | h | ⟨row, h1, h2, h3⟩)
          exacts [.inr ⟨n, hn, by omega, rfl⟩, .inl h, .inr ⟨row, h1, by omega, h3⟩]
        · rintro (h | ⟨row, h1, h2, rfl⟩)
          · exact .inr (.inl h)
          · rcases Nat.lt_succ_iff_lt_or_eq.1 h2 with h2 | rfl
            exacts [.inr (.inr ⟨row, h1, h2, rfl⟩), .inl rfl]
      · rw [streak_succ hn] at hc
        rw [forLoop_succ hn, heq _ rfl, streakStep_eq width col n data top reads' _ rfl, ← hc]

theorem AreaInv.step {topHeap : ℕ → Point} {data : Buf ℕ Range} {width height cols : ℕ} {s : AreaState}
    (h : AreaInv topHeap data width height cols s) :
    AreaInv topHeap data width height (cols + 1) (columnStep width height s cols) := by
  obtain ⟨hcount, ⟨reads, hdata, hreads⟩, harr, harrCount⟩ := h
  have hrec := recorded_succ data.get width height cols
  unfold columnStep
  simp only [hdata, Buf.load_fst, Buf.load_snd, Buf.get_reads]
  by_cases hbold : boldEnough (data.get cols)
  · obtain ⟨reads', hreads', heq⟩ := streakStep_forLoop width height cols data (data.get cols)
      (cols :: reads) { s with data := { data with reads := cols :: reads } } rfl
    have hstreak : columnStreak data.get width height (cols + 1) =
        streak (hit data.get width cols) height (columnStreak data.get width height cols) := by
      rw [columnStreak, if_pos hbold]
    have hloop := heq (columnStreak data.get width height (cols + 1)) (by rw [hstreak, ← hcount]; rfl)
    have hvisited : ∀ i, i ∈ reads' ↔ i ∈ data.reads ∨ Visited data.get width height (cols + 1) i := by
      intro i
      rw [hreads', List.mem_cons, hreads, visited_succ]
      simp only [hbold, true_and]
      tauto
    rw [if_pos hbold, hloop]
    by_cases hmax : 5 ≤ (columnStreak data.get width height (cols + 1)).2
    · rw [if_pos ⟨hbold, hmax⟩] at hrec
      simp only [ge_iff_le, hmax, if_true]
      refine ⟨rfl, ⟨reads', rfl, hvisited⟩, ?_, ?_⟩
      · simp only [harr, harrCount, hrec, List.map_append, List.map_cons, List.map_nil, Buf.storeAll_concat,
          List.length_map, Nat.zero_add]
      · simp only [harrCount, hrec, List.length_append, List.length_singleton]
    · rw [if_neg fun h => hmax h.2, List.append_nil] at hrec
      simp only [ge_iff_le, hmax, if_false]
      exact ⟨rfl, ⟨reads', rfl, hvisited⟩, by rw [hrec]; exact harr, by rw [hrec]; exact harrCount⟩
  · rw [if_neg fun h => hbold h.1, List.append_nil] at hrec
    rw [if_neg hbold]
    refine ⟨by rw [columnStreak, if_neg hbold]; exact hcount, ⟨cols :: reads, rfl, fun i => ?_⟩,
      by rw [hrec]; exact harr, by rw [hrec]; exact harrCount⟩
    rw [List.mem_cons, hreads, visited_succ]
    simp only [hbold, Bool.false_eq_true, false_and, or_false]
    tauto

theorem areaInv_forLoop (topHeap : ℕ → Point) (ctx : Context) (cols : ℕ) :
    AreaInv topHeap ctx.data ctx.width ctx.height cols
      (forLoop 0 cols (columnStep ctx.width ctx.height) ⟨1, 0, ctx.data, Buf.malloc topHeap, 0⟩) := by
  have h0 : AreaInv topHeap ctx.data ctx.width ctx.height 0 ⟨1, 0, ctx.data, Buf.malloc topHeap, 0⟩ :=
    ⟨rfl, ⟨ctx.data.reads, rfl, fun i => ⟨.inl, fun h => h.elim id fun ⟨_, h, _⟩ => absurd h (Nat.not_lt_zero _)⟩⟩,
      rfl, rfl⟩
  exact forLoop_inv (AreaInv topHeap ctx.data ctx.width ctx.height) (Nat.zero_le cols) h0
    fun i s _ _ hs => hs.step

/-! ### The areas -/

/-- The areas between neighbouring points. -/
def between (tops : List Point) : List Range := (tops.zip tops.tail).map fun p => ⟨p.1, p.2⟩

theorem length_between (tops : List Point) : (between tops).length = tops.length - 1 := by
  rw [between, List.length_map, List.length_zip, List.length_tail]; omega

theorem getElem?_between (tops : List Point) {i : ℕ} (hi : i + 1 < tops.length) :
    (between tops)[i]? = some ⟨tops[i], tops[i + 1]⟩ := by
  rw [List.getElem?_eq_getElem (by rw [length_between]; omega)]
  simp [between]

theorem pairStep_forLoop (topHeap : ℕ → Point) (tops : List Point) (buf : Buf ℕ Range) :
    (forLoop 1 tops.length (pairStep ((Buf.malloc topHeap).storeAll 0 tops))
      ⟨((Buf.malloc topHeap).storeAll 0 tops).get 0, 0, buf⟩).areaDotRangeArray =
      buf.storeAll 0 (between tops) := by
  set arr := (Buf.malloc topHeap).storeAll 0 tops with harr
  have hget : ∀ i (hi : i < tops.length), arr.get i = tops[i] := fun i hi => by
    rw [harr, Buf.get_storeAll, if_neg (Nat.not_lt_zero i), Nat.sub_zero, List.getElem?_eq_getElem hi]; rfl
  rcases Nat.lt_or_ge tops.length 1 with h | h
  · have hnil : tops = [] := List.length_eq_zero_iff.1 (by omega)
    rw [forLoop_of_le (by omega), hnil]; rfl
  · have hinv := forLoop_inv (fun i (p : PairState) => p = ⟨arr.get (i - 1), i - 1,
      buf.storeAll 0 ((between tops).take (i - 1))⟩) h (f := pairStep arr) (s := ⟨arr.get 0, 0, buf⟩) rfl ?_
    · rw [hinv, ← length_between, List.take_length]
    · intro i p hi hlt hp
      obtain ⟨j, rfl⟩ : ∃ j, i = j + 1 := ⟨i - 1, by omega⟩
      have hj : j < (between tops).length := by rw [length_between]; omega
      have hbetween : (between tops)[j] = ⟨arr.get j, arr.get (j + 1)⟩ := by
        rw [hget j (by omega), hget (j + 1) hlt]
        exact (List.getElem?_eq_some_iff.1 (getElem?_between tops hlt)).2
      have htake : ((between tops).take j).length = j := by rw [List.length_take]; omega
      rw [hp, show j + 1 + 1 - 1 = j + 1 from rfl, Nat.add_sub_cancel, List.take_succ_eq_append_getElem hj,
        Buf.storeAll_concat, htake, hbetween, Nat.zero_add]
      rfl

/-- The loads from `ctx->data` and the areas stored, for any contents of `ctx->data`. -/
theorem tryToGetAnswerAreaRange_spec (topHeap : ℕ → Point) (ctx : Context) (buf : Buf ℕ Range) :
    (∀ i, i ∈ (tryToGetAnswerAreaRange topHeap ctx buf).1.reads ↔
      i ∈ ctx.data.reads ∨ Visited ctx.data.get ctx.width ctx.height ctx.width i) ∧
    (tryToGetAnswerAreaRange topHeap ctx buf).2 = buf.storeAll 0
      (between ((recorded ctx.data.get ctx.width ctx.height ctx.width).map fun col =>
        (ctx.data.get col).fromP)) := by
  have h := areaInv_forLoop topHeap ctx ctx.width
  obtain ⟨-, ⟨reads, hdata, hreads⟩, harr, harrCount⟩ := h
  unfold tryToGetAnswerAreaRange
  dsimp only
  refine ⟨?_, ?_⟩
  · rw [hdata]; exact hreads
  · rw [harr, harrCount]
    have := pairStep_forLoop topHeap
      ((recorded ctx.data.get ctx.width ctx.height ctx.width).map fun col => (ctx.data.get col).fromP) buf
    rwa [List.length_map] at this

/-! ### The whole program -/

/-- In column 0 the four rows before some row `m` go on as its top range does, and row `m` does not. -/
def StreakEnds (cell : ℕ → Range) (width height : ℕ) : Prop :=
  ∃ m, 5 ≤ m ∧ m < height ∧ hit cell width 0 m = false ∧ ∀ j, m - 5 < j → j < m → hit cell width 0 j

namespace Grid
variable (g : Grid)

def lines : ℕ := (g.accepted 5 g.height).length

def stored (heap : Heap) : List Range := g.colLineRanges heap.seq 5 g.height

def cell (heap : Heap) (i : ℕ) : Range := ((g.stored heap)[i]?).getD (heap.data i)

theorem get_stored (heap : Heap) : ((Buf.malloc heap.data).storeAll 0 (g.stored heap)).get = g.cell heap := by
  funext i
  rw [Buf.get_storeAll, if_neg (Nat.not_lt_zero i), Nat.sub_zero]; rfl

end Grid

theorem scanToCountAreaWithMostDot_reads (arr : Buf ℕ Range) {count : ℕ} (hcount : 1 ≤ count)
    (coordinate : Buf ℤ Point) (coorWidth coorHeight : ℤ) (i : ℕ) :
    i ∈ (scanToCountAreaWithMostDot arr count coordinate coorWidth coorHeight).answerAreaRangeArr.reads ↔
      i ∈ arr.reads ∨ i < count := by
  have h := forLoop_inv (fun n (s : MarkState) => ∀ i, i ∈ s.answerAreaRangeArr.reads ↔ i ∈ arr.reads ∨ i < n)
    hcount (f := markStep coorWidth coorHeight)
    (s := ⟨0, (countDotStartWithRange (arr.get 0) coordinate coorWidth coorHeight).1, (arr.load 0).2,
      (countDotStartWithRange (arr.get 0) coordinate coorWidth coorHeight).2⟩) ?_ ?_
  · exact h i
  · intro i
    rw [Buf.load_snd, List.mem_cons, Nat.lt_one_iff, or_comm]
  · intro n s _ _ hs i
    have hread : (markStep coorWidth coorHeight s n).answerAreaRangeArr.reads =
        n :: s.answerAreaRangeArr.reads := by
      unfold markStep
      dsimp only
      split_ifs <;> rfl
    rw [hread, List.mem_cons, hs, Nat.lt_succ_iff_lt_or_eq]
    tauto

/-- The scan stays in its blocks, and every cell of `ctx->data` and of the areas that is loaded was stored before. -/
def ReadsWritten (heap : Heap) (coordinate : Buf ℤ Point) (width height : ℕ) : Prop :=
  ScanInBlocks heap coordinate width height ∧
    (∀ i ∈ (recognize heap coordinate width height).data.reads,
      (recognize heap coordinate width height).scan.ctx.data.Written i) ∧
    ∀ i ∈ (recognize heap coordinate width height).mark.answerAreaRangeArr.reads,
      (recognize heap coordinate width height).answerAreaRangeArr.Written i

instance (heap : Heap) (coordinate : Buf ℤ Point) (width height : ℕ) :
    Decidable (ReadsWritten heap coordinate width height) := inferInstanceAs (Decidable (_ ∧ _))

theorem recognize_mark (heap : Heap) (coordinate : Buf ℤ Point) (width height : ℕ) :
    (recognize heap coordinate width height).mark = scanToCountAreaWithMostDot
      (recognize heap coordinate width height).answerAreaRangeArr 4 coordinate width height := by
  unfold recognize
  dsimp only

section
variable {g : Grid} {coordinate : Buf ℤ Point} (hshow : g.Shows coordinate) (heap : Heap)
include hshow

theorem recognize_ctx : (recognize heap coordinate g.width g.height).scan.ctx =
    ⟨5, g.lines, (Buf.malloc heap.data).storeAll 0 (g.stored heap)⟩ := by
  show (scanRows heap coordinate g.width g.height 5).ctx = _
  rw [scanRows_eq hshow heap 5 (Nat.le_refl _)]
  rfl

theorem recognize_scan_written (i : ℕ) :
    (recognize heap coordinate g.width g.height).scan.ctx.data.Written i ↔ i < (g.stored heap).length := by
  rw [recognize_ctx hshow, Buf.written_malloc_storeAll]

theorem recognize_data_reads (i : ℕ) : i ∈ (recognize heap coordinate g.width g.height).data.reads ↔
    Visited (g.cell heap) 5 g.lines 5 i := by
  have h := (tryToGetAnswerAreaRange_spec heap.top (recognize heap coordinate g.width g.height).scan.ctx
    (Buf.malloc heap.area)).1 i
  rw [recognize_ctx hshow, g.get_stored, Buf.storeAll_reads] at h
  rw [show (recognize heap coordinate g.width g.height).data = (tryToGetAnswerAreaRange heap.top
    (recognize heap coordinate g.width g.height).scan.ctx (Buf.malloc heap.area)).1 from rfl,
    recognize_ctx hshow, h]
  exact ⟨fun h => h.resolve_left List.not_mem_nil, .inr⟩

theorem recognize_areas : (recognize heap coordinate g.width g.height).answerAreaRangeArr =
    (Buf.malloc heap.area).storeAll 0
      (between ((recorded (g.cell heap) 5 g.lines 5).map fun col => (g.cell heap col).fromP)) := by
  have h := (tryToGetAnswerAreaRange_spec heap.top (recognize heap coordinate g.width g.height).scan.ctx
    (Buf.malloc heap.area)).2
  rw [recognize_ctx hshow, g.get_stored] at h
  rw [← h, ← recognize_ctx hshow]
  rfl

theorem recognize_area_reads (i : ℕ) :
    i ∈ (recognize heap coordinate g.width g.height).mark.answerAreaRangeArr.reads ↔ i < 4 := by
  have hnil : (recognize heap coordinate g.width g.height).answerAreaRangeArr.reads = [] := by
    rw [recognize_areas hshow, Buf.storeAll_reads, Buf.malloc_reads]
  rw [recognize_mark, scanToCountAreaWithMostDot_reads _ (by decide), hnil]
  exact ⟨fun h => h.resolve_left List.not_mem_nil, .inr⟩

/-- The run stays in its blocks and loads only cells that were stored before exactly if the rows change their colour
seldom enough, the ranges have a cell each, there are five of them for each accepted row, the first five are bold,
and the streak of column 0 ends. -/
theorem reads_written_iff : ReadsWritten heap coordinate g.width g.height ↔
    ((∀ y < g.height, g.RowFits y) ∧ (g.stored heap).length ≤ allocMemCount g.height) ∧
      5 * g.lines ≤ (g.stored heap).length ∧ (∀ col < 5, boldEnough (g.cell heap col)) ∧
        StreakEnds (g.cell heap) 5 g.lines := by
  refine and_congr (scanInBlocks_iff hshow heap) ?_
  have hrec := length_recorded_iff (g.cell heap) 5 g.lines (by decide)
  have hle := length_recorded_le (g.cell heap) 5 g.lines 5
  simp only [recognize_scan_written hshow, recognize_data_reads hshow, recognize_area_reads hshow]
  rw [recognize_areas hshow]
  simp only [Buf.written_malloc_storeAll, length_between, List.length_map]
  constructor
  · rintro ⟨hdata, hareas⟩
    have hlen := hareas 3 (by decide)
    obtain ⟨hbold, hends⟩ := hrec.1 (by omega)
    refine ⟨?_, hbold, hends⟩
    obtain ⟨m, h5, hm, -⟩ := hends
    -- the last cell of column 4
    have := hdata ((g.lines - 1) * 5 + 4)
      ⟨4, by decide, .inr ⟨hbold 4 (by decide), g.lines - 1, by omega, by omega, rfl⟩⟩
    omega
  · rintro ⟨hlen, hbold, hends⟩
    have h5 := hrec.2 ⟨hbold, hends⟩
    obtain ⟨m, hm5, hm, -⟩ := hends
    refine ⟨?_, fun i hi => by omega⟩
    rintro i ⟨col, hcol, rfl | ⟨-, row, h1, h2, rfl⟩⟩
    · omega
    · omega

end

/-- Five rows of five bars, a row of five dots at the left edges of the bars, and three blank rows. -/
def endedBars : Grid := ⟨22, 9, by decide, fun x y =>
  x < 20 && (y < 5 && x % 4 != 0 || y == 5 && x % 4 == 1)⟩

theorem reads_written_iff_endedBars : ReadsWritten zeroHeap endedBars.coordinate 22 9 := by
  have hhits : ∀ j < 5, 5 - 5 < j → hit (endedBars.cell zeroHeap) 5 0 j := by decide +kernel
  exact (reads_written_iff endedBars.shows_coordinate zeroHeap).2 ⟨⟨by decide +kernel, by decide +kernel⟩,
    by decide +kernel, by decide +kernel, 5, by decide, by decide +kernel, by decide +kernel,
    fun j h0 hj => hhits j hj h0⟩

def blankGrid : Grid := ⟨1, 1, Nat.one_pos, fun _ _ => false⟩

theorem blankGrid_reads_unwritten :
    ¬ ((∀ i ∈ (recognize zeroHeap blankGrid.coordinate 1 1).data.reads,
        (recognize zeroHeap blankGrid.coordinate 1 1).scan.ctx.data.Written i) ∧
      ∀ i ∈ (recognize zeroHeap blankGrid.coordinate 1 1).mark.answerAreaRangeArr.reads,
        (recognize zeroHeap blankGrid.coordinate 1 1).answerAreaRangeArr.Written i) := by
  rintro ⟨hdata, -⟩
  have hread : 0 ∈ (recognize zeroHeap blankGrid.coordinate 1 1).data.reads := by decide
  have hwritten := hdata 0 hread
  exact absurd hwritten (by unfold Buf.Written; decide)

end CWorkspace.Pic
