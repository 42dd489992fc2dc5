import CWorkspace.Lib.Buf

/-!
# The answer-sheet recognizer (`c/pic-recognizer/utils.c`, `demo.c`)

The functions of the recognizer from the coordinate array on. Every `Malloc` is a `Buf` whose stale
contents are an argument; loads are recorded where a function reads cells another one was to fill
(`ctx->data`, the answer areas, the coordinate array). `Statics` is the `static int offset` of
`_locate_col_line_coord_range`, which outlives every `Context`.
-/

namespace CWorkspace.Pic

/-! ### `utils.c` -/

abbrev byte := UInt8

def DOT : byte := 1
def BLANK : byte := 0

structure Point where
  x : ℤ
  y : ℤ
  c : byte
deriving DecidableEq

structure Range where
  fromP : Point
  toP : Point
deriving DecidableEq

structure Context where
  width : ℕ
  height : ℕ
  data : Buf ℕ Range

def getRangeW (r : Range) : ℤ := (r.toP.x - r.fromP.x).natAbs

/-- `proc i` is the callback at its `i`-th call, on the state behind `ctx`; the row buffer is reused. -/
def processByRow {σ : Type*} (coordinate : Buf ℤ Point) (width height : ℕ)
    (proc : ℕ → Buf ℕ Point → ℕ → σ → σ) (coordRow : Buf ℕ Point) (s : σ) : σ :=
  (forLoop 0 height (fun (st : Buf ℕ Point × σ) row =>
    let coordRow := forLoop 0 width (fun (coordRow : Buf ℕ Point) col =>
      coordRow.store col (coordinate.get (row * width + col))) st.1
    (coordRow, proc row coordRow width st.2)) (coordRow, s)).2

structure ColorSeqUnit where
  count : ℤ
  endP : Point
deriving DecidableEq

structure SeqState where
  lastP : Point
  currUnit : ColorSeqUnit
  seqIndex : ℕ
  continuousDotSeq : Buf ℕ ColorSeqUnit

def seqStep (row : Buf ℕ Point) (s : SeqState) (col : ℕ) : SeqState :=
  let currP := row.get col
  let currUnit := { s.currUnit with endP := currP }
  if currP.c = s.lastP.c then
    let currUnit := { currUnit with count := currUnit.count + 1 }
    { s with
      currUnit := currUnit
      continuousDotSeq := s.continuousDotSeq.store s.seqIndex currUnit
      lastP := currP }
  else
    let seqIndex := s.seqIndex + 1
    let currUnit := { currUnit with count := 1 }
    { seqIndex := seqIndex
      currUnit := currUnit
      continuousDotSeq := s.continuousDotSeq.store seqIndex currUnit
      lastP := currP }

/-- Returns the last index used (not the length) and the filled buffer. -/
def getBwContinuousSeqOfRow (row : Buf ℕ Point) (length : ℕ) (continuousDotSeq : Buf ℕ ColorSeqUnit) :
    ℕ × Buf ℕ ColorSeqUnit :=
  let lastP := row.get 0
  let currUnit : ColorSeqUnit := ⟨1, lastP⟩
  let s := forLoop 1 length (seqStep row) ⟨lastP, currUnit, 0, continuousDotSeq.store 0 currUnit⟩
  (s.seqIndex, s.continuousDotSeq)

def isColLineRow (continuousDotSeq : Buf ℕ ColorSeqUnit) (seqLen shouldHaveColumnLineCount : ℕ) : Bool :=
  let visibleDotSeqCount := forLoop 0 (seqLen + 1) (fun visibleDotSeqCount i =>
    let u := continuousDotSeq.get i
    if u.endP.c = DOT then visibleDotSeqCount + 1 else visibleDotSeqCount) 0
  shouldHaveColumnLineCount == visibleDotSeqCount

structure LocateState where
  rangeCount : ℕ
  data : Buf ℕ Range

def locateStep (continuousDotSeq : Buf ℕ ColorSeqUnit) (offset : ℕ) (s : LocateState) (i : ℕ) :
    LocateState :=
  let u1 := continuousDotSeq.get i
  let u2 := continuousDotSeq.get (i + 1)
  let range : Range := ⟨u1.endP, u2.endP⟩
  -- both `continue`s: an end point that was not set, and a pair running backwards
  if range.toP.x = 0 ∧ range.toP.y = 0 then s
  else if range.fromP.x > range.toP.x then s
  else { rangeCount := s.rangeCount + 1, data := s.data.store (offset + s.rangeCount) range }

/-- The state that is not in any `Context`. -/
structure Statics where
  offset : ℕ

/-- The loop is `for (i = 0; i <= seqLen; i += 2)`, here with `i = 2 * j`. -/
def locateColLineCoordRange (continuousDotSeq : Buf ℕ ColorSeqUnit) (seqLen : ℕ) (data : Buf ℕ Range)
    (st : Statics) : Buf ℕ Range × Statics :=
  let s := forLoop 0 (seqLen / 2 + 1) (fun s j => locateStep continuousDotSeq st.offset s (2 * j)) ⟨0, data⟩
  (s.data, ⟨st.offset + s.rangeCount⟩)

/-- What `rowProcessor` works on: its `ctx`, and the static variable. -/
structure ScanState where
  ctx : Context
  statics : Statics

/-- `seqHeap` is what the freshly allocated unit buffer happens to contain. -/
def rowProcessor (seqHeap : ℕ → ColorSeqUnit) (row : Buf ℕ Point) (length : ℕ) (s : ScanState) : ScanState :=
  let (seqLen, continuousDotSeq) := getBwContinuousSeqOfRow row length (Buf.malloc seqHeap)
  let colLineCount := s.ctx.width
  if isColLineRow continuousDotSeq seqLen colLineCount then
    let (data, statics) := locateColLineCoordRange continuousDotSeq seqLen s.ctx.data s.statics
    { ctx := { s.ctx with data := data, height := s.ctx.height + 1 }, statics := statics }
  else s

/-! ### The answer areas -/

structure AreaState where
  verticalContinuousCount : ℕ
  verticalContinuousCountMax : ℕ
  data : Buf ℕ Range
  areaTopPArr : Buf ℕ Point
  areaTopPArrCount : ℕ

/-- Same place and width as the top range, and `row` lines below it. -/
def aligned (top r : Range) (row : ℕ) : Bool :=
  r.fromP.x = top.fromP.x ∧ getRangeW r = getRangeW top ∧ r.fromP.y - top.fromP.y = row

def streakStep (width col : ℕ) (top : Range) (s : AreaState) (row : ℕ) : AreaState :=
  let (r, data) := s.data.load (row * width + col)
  if aligned top r row then
    { s with data := data, verticalContinuousCount := s.verticalContinuousCount + 1 }
  else
    { s with
      data := data
      verticalContinuousCountMax := max s.verticalContinuousCountMax s.verticalContinuousCount
      verticalContinuousCount := 1 }

def boldEnough (top : Range) : Bool := top.toP.x - top.fromP.x > 2

def columnStep (width height : ℕ) (s : AreaState) (col : ℕ) : AreaState :=
  let (top, data) := s.data.load col
  let s := { s with data := data }
  if boldEnough top then
    let s := forLoop 1 height (streakStep width col top) s
    if s.verticalContinuousCountMax ≥ 5 then
      { s with
        areaTopPArr := s.areaTopPArr.store s.areaTopPArrCount top.fromP
        areaTopPArrCount := s.areaTopPArrCount + 1 }
    else s
  else s

structure PairState where
  prevAreaTopP : Point
  areaDotRangeCount : ℕ
  areaDotRangeArray : Buf ℕ Range

def pairStep (areaTopPArr : Buf ℕ Point) (s : PairState) (i : ℕ) : PairState :=
  let currAreaTopP := areaTopPArr.get i
  let areaTopXRange : Range := ⟨s.prevAreaTopP, currAreaTopP⟩
  { areaDotRangeArray := s.areaDotRangeArray.store s.areaDotRangeCount areaTopXRange
    areaDotRangeCount := s.areaDotRangeCount + 1
    prevAreaTopP := currAreaTopP }

/-- Returns `ctx->data` (with the loads made from it) and the area array. -/
def tryToGetAnswerAreaRange (topHeap : ℕ → Point) (colLineRange2DArray : Context)
    (areaDotRangeArray : Buf ℕ Range) : Buf ℕ Range × Buf ℕ Range :=
  let width := colLineRange2DArray.width
  let height := colLineRange2DArray.height
  let s := forLoop 0 width (columnStep width height)
    ⟨1, 0, colLineRange2DArray.data, Buf.malloc topHeap, 0⟩
  let prevAreaTopP := s.areaTopPArr.get 0
  let p := forLoop 1 s.areaTopPArrCount (pairStep s.areaTopPArr) ⟨prevAreaTopP, 0, areaDotRangeArray⟩
  (s.data, p.areaDotRangeArray)

/-- `(int)(areaWidth * 0.95)`. The double nearest to `0.95` lies below it by less than half a unit in
the last place of any product that is a whole number, so the product rounds to that number and the
truncation is the one of the exact quotient. -/
def ninetyFivePercent (areaWidth : ℤ) : ℤ := (95 * areaWidth).tdiv 100

def countDotInLine (r : Range) (coorWidth row : ℤ) (s : ℤ × Buf ℤ Point) : ℤ × Buf ℤ Point :=
  forLoop 0 (r.toP.x - r.fromP.x).toNat (fun s i =>
    let col := r.fromP.x + i
    let (p, coordinate) := s.2.load (row * coorWidth + col)
    if p.c = DOT then (s.1 + 1, coordinate) else (s.1, coordinate)) s

/-- The row loop of `_count_dot_start_with_range` with `rows` rows still to go. -/
def countDotRows (r : Range) (coorWidth : ℤ) : ℕ → ℤ → ℤ → Buf ℤ Point → ℤ × Buf ℤ Point
  | 0, _, totalDot, coordinate => (totalDot, coordinate)
  | rows + 1, row, totalDot, coordinate =>
    let (totalDotCountPerLine, coordinate) := countDotInLine r coorWidth row (0, coordinate)
    let areaWidth := r.toP.x - r.fromP.x
    -- nearly a whole line of dots is the bottom of the frame: leave without counting it
    if totalDotCountPerLine > ninetyFivePercent areaWidth then (totalDot, coordinate)
    else countDotRows r coorWidth rows (row + 1) (totalDot + totalDotCountPerLine) coordinate

def countDotStartWithRange (r : Range) (coordinate : Buf ℤ Point) (coorWidth coorHeight : ℤ) :
    ℤ × Buf ℤ Point :=
  countDotRows r coorWidth (coorHeight - r.fromP.y).toNat r.fromP.y 0 coordinate

structure MarkState where
  markedAreaIndex : ℕ
  totalDotCountOfArea : ℤ
  answerAreaRangeArr : Buf ℕ Range
  coordinate : Buf ℤ Point

def markStep (coorWidth coorHeight : ℤ) (s : MarkState) (i : ℕ) : MarkState :=
  let (r, answerAreaRangeArr) := s.answerAreaRangeArr.load i
  let (currTotalDotCountOfArea, coordinate) := countDotStartWithRange r s.coordinate coorWidth coorHeight
  let s := { s with answerAreaRangeArr := answerAreaRangeArr, coordinate := coordinate }
  if s.totalDotCountOfArea < currTotalDotCountOfArea then
    { s with totalDotCountOfArea := currTotalDotCountOfArea, markedAreaIndex := i }
  else s

/-- The final state of the search; its `markedAreaIndex` is the value returned. -/
def scanToCountAreaWithMostDot (answerAreaRangeArr : Buf ℕ Range) (answerAreaCount : ℕ)
    (coordinate : Buf ℤ Point) (coorWidth coorHeight : ℤ) : MarkState :=
  let (r, answerAreaRangeArr) := answerAreaRangeArr.load 0
  let (totalDotCountOfArea, coordinate) := countDotStartWithRange r coordinate coorWidth coorHeight
  forLoop 1 answerAreaCount (markStep coorWidth coorHeight)
    ⟨0, totalDotCountOfArea, answerAreaRangeArr, coordinate⟩

/-! ### `main`, from the coordinate array on -/

/-- What the blocks `main` and its callees allocate happen to contain; `seq i` is the unit buffer of the
`i`-th row. -/
structure Heap where
  coordRow : ℕ → Point
  seq : ℕ → ℕ → ColorSeqUnit
  data : ℕ → Range
  top : ℕ → Point
  area : ℕ → Range

/-- Cells nobody has written read as zero. -/
def zeroPoint : Point := ⟨0, 0, BLANK⟩
def zeroUnit : ColorSeqUnit := ⟨0, zeroPoint⟩

/-- The first `rows` rows handed to `rowProcessor` with a fresh `Context`, the static variable being `st`. -/
def processRows (heap : Heap) (coordinate : Buf ℤ Point) (width rows ctxWidth : ℕ) (st : Statics) : ScanState :=
  processByRow coordinate width rows (fun i => rowProcessor (heap.seq i)) (Buf.malloc heap.coordRow)
    ⟨⟨ctxWidth, 0, Buf.malloc heap.data⟩, st⟩

/-- In a fresh process the static variable is zero. -/
def scanRows (heap : Heap) (coordinate : Buf ℤ Point) (width rows ctxWidth : ℕ) : ScanState :=
  processRows heap coordinate width rows ctxWidth ⟨0⟩

def allocMemCount (height : ℕ) : ℕ := 5 * (height * 2 / 3)

/-- What `main` has after each of its three steps. -/
structure Recognized where
  scan : ScanState
  data : Buf ℕ Range
  answerAreaRangeArr : Buf ℕ Range
  mark : MarkState

def recognize (heap : Heap) (coordinate : Buf ℤ Point) (width height : ℕ) : Recognized :=
  let scan := scanRows heap coordinate width height 5
  let areas := tryToGetAnswerAreaRange heap.top scan.ctx (Buf.malloc heap.area)
  ⟨scan, areas.1, areas.2, scanToCountAreaWithMostDot areas.2 4 coordinate width height⟩

end CWorkspace.Pic
