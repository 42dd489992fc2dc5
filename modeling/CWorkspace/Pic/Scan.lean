import CWorkspace.Pic.Rows

/-!
# The scan: which `Range` cells hold what

A `Grid` is an image of dots and blanks. `scanRows_eq` gives the state after any number of rows: the
accepted rows are those with `ctx->width` dot runs, and `ctx->data` holds the ranges of these rows, one
behind the other. The reader of `ctx->data` takes it for a matrix of `ctx->width` columns; it is one as
long as no accepted row begins and ends with a dot (`matrix_iff`), since such a row is one range short.
-/

namespace CWorkspace.Pic

/-- An image; `bmpread` refuses one without columns. -/
structure Grid where
  width : ℕ
  height : ℕ
  width_pos : 0 < width
  dot : ℕ → ℕ → Bool

namespace Grid
variable (g : Grid)

def point (x y : ℕ) : Point := ⟨x, y, if g.dot x y then DOT else BLANK⟩

def row (y : ℕ) : List Point := (List.range g.width).map fun x => g.point x y

def Shows (coordinate : Buf ℤ Point) : Prop :=
  ∀ x < g.width, ∀ y < g.height, coordinate.get ((y : ℤ) * g.width + x) = g.point x y

def coordinate : Buf ℤ Point := Buf.malloc fun i => g.point (i % g.width).toNat (i / g.width).toNat

theorem shows_coordinate : g.Shows g.coordinate := by
  intro x hx y _
  have hw : (g.width : ℤ) ≠ 0 := by have := g.width_pos; omega
  have hmod : ((y : ℤ) * g.width + x) % g.width = x := by
    rw [Int.add_comm, Int.add_mul_emod_self_right, Int.emod_eq_of_lt (by omega) (by omega)]
  have hdiv : ((y : ℤ) * g.width + x) / g.width = y := by
    rw [Int.add_comm, Int.add_mul_ediv_right _ _ hw, Int.ediv_eq_zero_of_lt (by omega) (by omega),
      Int.zero_add]
  rw [coordinate, Buf.get_malloc, hmod, hdiv]; rfl

theorem row_pairwise (y : ℕ) : ((g.row y).map Point.x).Pairwise (· < ·) := by
  rw [row, List.map_map, List.pairwise_map]
  exact List.pairwise_lt_range.imp fun h => by simpa [point] using h

theorem row_nonneg (y : ℕ) : ∀ p ∈ g.row y, 0 ≤ p.x := by
  intro p hp
  obtain ⟨x, -, rfl⟩ := List.mem_map.1 hp
  exact Int.natCast_nonneg x

theorem point_eq_dot {x y : ℕ} : (g.point x y).c = DOT ↔ g.dot x y := by
  by_cases h : g.dot x y <;> simp [point, h, DOT, BLANK]

theorem point_eq_iff {x y x' y' : ℕ} : (g.point x y).c = (g.point x' y').c ↔ g.dot x y = g.dot x' y' := by
  by_cases h : g.dot x y <;> by_cases h' : g.dot x' y' <;> simp [point, h, h', DOT, BLANK]

theorem dotEnds_row (y : ℕ) : dotEnds (g.row y) = (g.dot 0 y && g.dot (g.width - 1) y) := by
  have hw : g.width ≠ 0 := Nat.ne_of_gt g.width_pos
  rw [dotEnds, row, List.head?_map, List.getLast?_map, List.head?_range, List.getLast?_range, if_neg hw,
    if_neg hw]
  simp [point_eq_dot]

theorem row_colour (y : ℕ) : ∀ p ∈ g.row y, p.c = DOT ∨ p.c = BLANK := by
  intro p hp
  obtain ⟨x, -, rfl⟩ := List.mem_map.1 hp
  by_cases h : g.dot x y <;> simp [point, h]

def accepted (ctxWidth rows : ℕ) : List ℕ := (List.range rows).filter fun y => dotRuns (g.row y) = ctxWidth

def dotEnded (ctxWidth rows : ℕ) : List ℕ := (g.accepted ctxWidth rows).filter fun y => dotEnds (g.row y)

/-- The ranges of the accepted rows, in the order in which they are stored. -/
def colLineRanges (seq : ℕ → ℕ → ColorSeqUnit) (ctxWidth rows : ℕ) : List Range :=
  (g.accepted ctxWidth rows).flatMap fun y => storedRanges (seq y) (g.row y)

theorem accepted_succ (k p : ℕ) : g.accepted k (p + 1) =
    g.accepted k p ++ if dotRuns (g.row p) = k then [p] else [] := by
  rw [accepted, List.range_succ, List.filter_append, ← accepted, List.filter_singleton]
  simp

theorem colLineRanges_succ (seq : ℕ → ℕ → ColorSeqUnit) (k p : ℕ) : g.colLineRanges seq k (p + 1) =
    g.colLineRanges seq k p ++ if dotRuns (g.row p) = k then storedRanges (seq p) (g.row p) else [] := by
  rw [colLineRanges, accepted_succ, List.flatMap_append, ← colLineRanges]
  split_ifs <;> simp

theorem mem_accepted {k p y : ℕ} : y ∈ g.accepted k p ↔ y < p ∧ dotRuns (g.row y) = k := by
  simp [accepted]

end Grid

/-! ### The state of the scan -/

/-- The rows reach the callback as they stand in the coordinate array. -/
theorem processByRow_inv {σ : Type*} {coordinate : Buf ℤ Point} {width height : ℕ}
    {proc : ℕ → Buf ℕ Point → ℕ → σ → σ} {coordRow : Buf ℕ Point} {s : σ} (P : ℕ → σ → Prop) (h0 : P 0 s)
    (hproc : ∀ y row s, y < height →
      points row width = (List.range width).map (fun x : ℕ => coordinate.get ((y : ℤ) * width + x)) →
      P y s → P (y + 1) (proc y row width s)) :
    P height (processByRow coordinate width height proc coordRow s) := by
  unfold processByRow
  refine forLoop_inv (fun y (st : Buf ℕ Point × σ) => P y st.2) (Nat.zero_le _) h0 ?_
  intro y st _ hy hst
  refine hproc y _ st.2 hy ?_ hst
  rw [points]
  refine List.map_congr_left fun x hx => ?_
  exact Buf.get_fill st.1 (fun x : ℕ => coordinate.get ((y : ℤ) * width + x)) (List.mem_range.1 hx)

section
variable {g : Grid} {coordinate : Buf ℤ Point} (hshow : g.Shows coordinate) (heap : Heap) (k : ℕ)
include hshow

/-- The state after the first `p` rows: the ranges begin where the static variable stood. -/
theorem processRows_eq (st : Statics) {p : ℕ} (hp : p ≤ g.height) :
    processRows heap coordinate g.width p k st =
      ⟨⟨k, (g.accepted k p).length, (Buf.malloc heap.data).storeAll st.offset (g.colLineRanges heap.seq k p)⟩,
        ⟨st.offset + (g.colLineRanges heap.seq k p).length⟩⟩ := by
  unfold processRows
  refine processByRow_inv (fun p (s : ScanState) => s = ⟨⟨k, (g.accepted k p).length,
    (Buf.malloc heap.data).storeAll st.offset (g.colLineRanges heap.seq k p)⟩,
      ⟨st.offset + (g.colLineRanges heap.seq k p).length⟩⟩) rfl ?_
  intro y row s hy hrow hs
  have hpoints : points row g.width = g.row y := by
    rw [hrow]
    exact List.map_congr_left fun x hx => hshow x (List.mem_range.1 hx) y (Nat.lt_of_lt_of_le hy hp)
  have hstep := rowProcessor_eq (heap.seq y) row g.width_pos (hpoints ▸ g.row_pairwise y)
    (hpoints ▸ g.row_nonneg y) s
  rw [hstep, hpoints, hs, g.accepted_succ, g.colLineRanges_succ]
  dsimp only
  split_ifs
  · rw [List.length_append, List.length_append, Buf.storeAll_append, Nat.add_assoc]; rfl
  · rw [List.append_nil, List.append_nil]

theorem scanRows_eq {p : ℕ} (hp : p ≤ g.height) : scanRows heap coordinate g.width p k =
    ⟨⟨k, (g.accepted k p).length, (Buf.malloc heap.data).storeAll 0 (g.colLineRanges heap.seq k p)⟩,
      ⟨(g.colLineRanges heap.seq k p).length⟩⟩ := by
  have h := processRows_eq hshow heap k ⟨0⟩ hp
  rwa [Nat.zero_add] at h

theorem stores_below_iff {p : ℕ} (hp : p ≤ g.height) {n : ℕ} :
    (∀ c ∈ (scanRows heap coordinate g.width p k).ctx.data.stores, c.1 < n) ↔
      (g.colLineRanges heap.seq k p).length ≤ n := by
  have hidx : (scanRows heap coordinate g.width p k).ctx.data.stores.map Prod.fst =
      List.range' 0 (g.colLineRanges heap.seq k p).length := by
    rw [scanRows_eq hshow heap k hp, Buf.indices_storeAll]; rfl
  rw [← List.forall_mem_map (f := Prod.fst) (P := (· < n)), hidx]
  simp only [List.mem_range'_1]
  constructor
  · intro h
    exact Nat.le_of_not_lt fun hlt => Nat.lt_irrefl n (h n ⟨Nat.zero_le n, by omega⟩)
  · intro h i hi
    omega

end

namespace Grid
variable (g : Grid)

theorem colLineRanges_prefix (seq : ℕ → ℕ → ColorSeqUnit) (k : ℕ) {p q : ℕ} (h : p ≤ q) :
    g.colLineRanges seq k p <+: g.colLineRanges seq k q := by
  induction q, h using Nat.le_induction with
  | base => exact List.prefix_refl _
  | succ q _ ih => rw [colLineRanges_succ]; exact ih.trans (List.prefix_append _ _)

/-- An accepted row has as many ranges as the context has columns, one fewer when it begins and ends
with a dot. -/
theorem length_colLineRanges (k p : ℕ) : (g.colLineRanges (fun _ _ => zeroUnit) k p).length +
    (g.dotEnded k p).length = (g.accepted k p).length * k := by
  have hrow : ∀ y, (storedRanges (fun _ => zeroUnit) (g.row y)).length + (dotEnds (g.row y)).toNat =
      dotRuns (g.row y) := fun y => by
    rw [storedRanges_zero, dotRuns_eq _ (g.row_colour y)]
  have hlist : ∀ l : List ℕ, (∀ y ∈ l, dotRuns (g.row y) = k) →
      (l.flatMap fun y => storedRanges (fun _ => zeroUnit) (g.row y)).length +
        (l.filter fun y => dotEnds (g.row y)).length = l.length * k := by
    intro l hl
    induction l with
    | nil => simp
    | cons y l ih =>
      have hy := hrow y
      have hl' := ih fun y hy => hl y (List.mem_cons_of_mem _ hy)
      rw [hl y List.mem_cons_self] at hy
      rw [List.flatMap_cons, List.length_append, List.filter_cons, List.length_cons, Nat.succ_mul]
      cases hd : dotEnds (g.row y) <;> simp only [hd, Bool.toNat_true, Bool.toNat_false] at hy <;>
        simp only [if_true, Bool.false_eq_true, if_false, List.length_cons] <;> omega
  exact hlist _ fun y hy => (g.mem_accepted.1 hy).2

theorem dotEnded_eq_nil_iff {k p : ℕ} :
    g.dotEnded k p = [] ↔ ∀ y < p, dotRuns (g.row y) = k → ¬ dotEnds (g.row y) := by
  simp only [dotEnded, List.filter_eq_nil_iff, mem_accepted, and_imp]

end Grid

/-! ### The matrix -/

/-- What row `y` adds to `ctx->data`: the stores made since the rows before it. -/
def appended (heap : Heap) (coordinate : Buf ℤ Point) (width k y : ℕ) : List (ℕ × Range) :=
  (scanRows heap coordinate width (y + 1) k).ctx.data.stores.drop
    (scanRows heap coordinate width y k).ctx.data.stores.length

/-- After `p` rows `ctx->data` is a matrix of `k` columns: the accepted row number `r` was stored into the
cells from `r * k` to `(r + 1) * k`, and they still hold it. -/
structure IsMatrix (heap : Heap) (coordinate : Buf ℤ Point) (width k p : ℕ) : Prop where
  offset : (scanRows heap coordinate width p k).statics.offset =
    (scanRows heap coordinate width p k).ctx.height * k
  row : ∀ y < p, ∀ r, (scanRows heap coordinate width y k).ctx.height = r →
    (scanRows heap coordinate width (y + 1) k).ctx.height = r + 1 →
    (appended heap coordinate width k y).map Prod.fst = List.range' (r * k) k ∧
      ∀ c ∈ appended heap coordinate width k y, (scanRows heap coordinate width p k).ctx.data.get c.1 = c.2

section
variable {g : Grid} {coordinate : Buf ℤ Point} (hshow : g.Shows coordinate) (heap : Heap) (k : ℕ)
include hshow

theorem appended_eq {y : ℕ} (hy : y < g.height) (hacc : dotRuns (g.row y) = k) :
    appended heap coordinate g.width k y =
      ((storedRanges (heap.seq y) (g.row y)).zipIdx (g.colLineRanges heap.seq k y).length).map Prod.swap := by
  rw [appended, scanRows_eq hshow heap k hy, scanRows_eq hshow heap k (Nat.le_of_lt hy)]
  simp only [Buf.stores_storeAll, g.colLineRanges_succ, if_pos hacc, List.zipIdx_append, List.map_append,
    Nat.zero_add]
  rw [← List.append_assoc, List.drop_left]

theorem get_appended {y p : ℕ} (hyp : y < p) (hp : p ≤ g.height) (hacc : dotRuns (g.row y) = k) :
    ∀ c ∈ appended heap coordinate g.width k y,
      (scanRows heap coordinate g.width p k).ctx.data.get c.1 = c.2 := by
  intro c hc
  rw [appended_eq hshow heap k (Nat.lt_of_lt_of_le hyp hp) hacc] at hc
  obtain ⟨⟨a, i⟩, ha, rfl⟩ := List.mem_map.1 hc
  obtain ⟨hi, hia⟩ := List.mk_mem_zipIdx_iff_le_and_getElem?_sub.1 ha
  obtain ⟨rest, hrest⟩ := g.colLineRanges_prefix heap.seq k hyp
  rw [scanRows_eq hshow heap k hp, Buf.get_storeAll, if_neg (Nat.not_lt_zero _), ← hrest,
    g.colLineRanges_succ, if_pos hacc, List.append_assoc]
  show (_ : Option Range).getD _ = a
  rw [Prod.swap_prod_mk, Nat.sub_zero, List.getElem?_append_right hi, List.getElem?_append_left, hia]
  · rfl
  · exact (List.getElem?_eq_some_iff.1 hia).1

theorem height_succ_iff {y : ℕ} (hy : y < g.height) :
    (scanRows heap coordinate g.width (y + 1) k).ctx.height =
      (scanRows heap coordinate g.width y k).ctx.height + 1 ↔ dotRuns (g.row y) = k := by
  rw [scanRows_eq hshow heap k hy, scanRows_eq hshow heap k (Nat.le_of_lt hy), g.accepted_succ]
  split_ifs with h <;> simp [h]

/-- `ctx->data` is a matrix exactly while no accepted row begins and ends with a dot. -/
theorem isMatrix_iff (hzero : heap.seq = fun _ _ => zeroUnit) {p : ℕ} (hp : p ≤ g.height) :
    IsMatrix heap coordinate g.width k p ↔ ∀ y < p, dotRuns (g.row y) = k → ¬ dotEnds (g.row y) := by
  have hlen := g.length_colLineRanges k
  rw [← g.dotEnded_eq_nil_iff, ← List.length_eq_zero_iff]
  constructor
  · intro h
    have hoff := h.offset
    rw [scanRows_eq hshow heap k hp, hzero] at hoff
    dsimp only at hoff
    have := hlen p
    omega
  · intro h
    have hgood : ∀ y ≤ p, (g.colLineRanges heap.seq k y).length = (g.accepted k y).length * k := by
      intro y hy
      have hnil : g.dotEnded k y = [] := g.dotEnded_eq_nil_iff.2 fun z hz =>
        g.dotEnded_eq_nil_iff.1 (List.length_eq_zero_iff.1 h) z (Nat.lt_of_lt_of_le hz hy)
      have := hlen y
      rwa [hnil, List.length_nil, Nat.add_zero, ← hzero] at this
    refine ⟨?_, ?_⟩
    · rw [scanRows_eq hshow heap k hp]; exact hgood p le_rfl
    · intro y hy r hr hr'
      have hyh := Nat.lt_of_lt_of_le hy hp
      have hacc := (height_succ_iff hshow heap k hyh).1 (hr' ▸ hr ▸ rfl)
      refine ⟨?_, get_appended hshow heap k hy hp hacc⟩
      have hr : (g.accepted k y).length = r := by rwa [scanRows_eq hshow heap k (Nat.le_of_lt hyh)] at hr
      have hnext : (storedRanges (heap.seq y) (g.row y)).length = k := by
        have h1 := hgood (y + 1) hy
        rw [g.colLineRanges_succ, g.accepted_succ, if_pos hacc, if_pos hacc, List.length_append,
          List.length_append, hgood y (Nat.le_of_lt hy), List.length_singleton, Nat.succ_mul] at h1
        omega
      rw [appended_eq hshow heap k hyh hacc, List.map_map, hgood y (Nat.le_of_lt hy), hr, ← hnext]
      exact List.zipIdx_map_snd _ _

/-- Every store into `ctx->data` is inside the allocation exactly if so many ranges fit: five an accepted
row, less one for each that begins and ends with a dot. -/
theorem stores_in_capacity_iff (hzero : heap.seq = fun _ _ => zeroUnit) :
    (∀ c ∈ (scanRows heap coordinate g.width g.height 5).ctx.data.stores, c.1 < allocMemCount g.height) ↔
      5 * (g.accepted 5 g.height).length ≤ allocMemCount g.height + (g.dotEnded 5 g.height).length := by
  have hlen := g.length_colLineRanges 5 g.height
  rw [stores_below_iff hshow heap 5 (Nat.le_refl g.height), hzero]
  omega

end

def zeroHeap : Heap := ⟨fun _ => zeroPoint, fun _ _ => zeroUnit, fun _ => ⟨zeroPoint, zeroPoint⟩,
  fun _ => zeroPoint, fun _ => ⟨zeroPoint, zeroPoint⟩⟩

def dotGrid : Grid := ⟨1, 1, Nat.one_pos, fun _ _ => true⟩

/-- One row of five dots, each with a blank before it. -/
def fiveDotsGrid : Grid := ⟨10, 1, by decide, fun x _ => x % 2 == 1⟩

theorem isMatrix_iff_fiveDotsGrid : IsMatrix zeroHeap fiveDotsGrid.coordinate 10 5 1 :=
  (isMatrix_iff fiveDotsGrid.shows_coordinate zeroHeap 5 rfl (Nat.le_refl 1)).2 (by decide)

theorem not_isMatrix_dotGrid : ¬ IsMatrix zeroHeap dotGrid.coordinate 1 1 1 := by
  intro h
  have hoff : (scanRows zeroHeap dotGrid.coordinate 1 1 1).statics.offset = 0 := by decide
  have hheight : (scanRows zeroHeap dotGrid.coordinate 1 1 1).ctx.height = 1 := by decide
  have := h.offset
  omega

/-- The same row above a blank one. -/
def blankBelowGrid : Grid := ⟨10, 2, by decide, fun x y => x % 2 == 1 && y == 0⟩

theorem stores_in_capacity_iff_blankBelowGrid :
    (scanRows zeroHeap blankBelowGrid.coordinate 10 2 5).ctx.data.stores.length = 5 ∧
      ∀ c ∈ (scanRows zeroHeap blankBelowGrid.coordinate 10 2 5).ctx.data.stores, c.1 < allocMemCount 2 :=
  ⟨by decide, (stores_in_capacity_iff blankBelowGrid.shows_coordinate zeroHeap rfl).2 (by decide)⟩

theorem fiveDotsGrid_stores_outside : ¬ ∀ c ∈
    (scanRows zeroHeap fiveDotsGrid.coordinate 10 1 5).ctx.data.stores, c.1 < allocMemCount 1 := by
  decide

end CWorkspace.Pic
