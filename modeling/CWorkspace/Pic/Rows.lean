import CWorkspace.Lib.Runs
import CWorkspace.Pic.Demo

/-!
# One row: runs, acceptance, ranges

`_get_bw_continuous_seq_of_row` computes the maximal runs of the row (`getBw_runs`), `_is_col_line_row`
counts the dot runs among them, and `_locate_col_line_coord_range` appends `rowRanges`, the pairs of
neighbouring run ends, and possibly a pair with a unit that is not set (`lastRange`; never when unset
units read as zero). `rowProcessor_eq` is the row's whole effect.
-/

namespace CWorkspace.Pic

def ColorSeqUnit.ofRun (r : Run Point) : ColorSeqUnit := ⟨r.count, r.last⟩

def dotRuns (row : List Point) : ℕ := (ends Point.c row).countP (·.c = DOT)

/-- The pairs of neighbouring run ends of a row. -/
def rowRanges (row : List Point) : List Range :=
  (pairs (ends Point.c row)).map fun p => ⟨p.1, p.2⟩

def points (row : Buf ℕ Point) (n : ℕ) : List Point := (List.range n).map row.get

theorem points_succ (row : Buf ℕ Point) (n : ℕ) : points row (n + 1) = points row n ++ [row.get n] := by
  rw [points, List.range_succ, List.map_append]; rfl

/-! ### The runs -/

/-- The scanner's variables after the points before `i`: its buffer holds their runs. -/
structure SeqInv (row : Buf ℕ Point) (seq : Buf ℕ ColorSeqUnit) (i : ℕ) (s : SeqState) : Prop where
  runs : ∃ rs r, runs Point.c (points row i) = rs ++ [r] ∧ r.last = s.lastP ∧
    s.currUnit = .ofRun r ∧ s.seqIndex = rs.length
  get : ∀ j, s.continuousDotSeq.get j =
    (((CWorkspace.runs Point.c (points row i))[j]?).map ColorSeqUnit.ofRun).getD (seq.get j)

theorem SeqInv.step {row : Buf ℕ Point} {seq : Buf ℕ ColorSeqUnit} {i : ℕ} {s : SeqState}
    (h : SeqInv row seq i s) : SeqInv row seq (i + 1) (seqStep row s i) := by
  obtain ⟨⟨rs, r, hrs, hlast, hunit, hidx⟩, hget⟩ := h
  have hruns := runs_concat Point.c hrs (row.get i)
  rw [← points_succ, hlast] at hruns
  unfold seqStep
  by_cases hc : (row.get i).c = s.lastP.c
  · -- the run goes on: its unit is stored again, one longer
    rw [if_pos hc.symm] at hruns
    simp only [hc, ↓reduceIte]
    refine ⟨⟨rs, _, hruns, rfl, by simp [hunit, ColorSeqUnit.ofRun], hidx⟩, fun j => ?_⟩
    rw [hruns, Buf.get_store, hget, hrs, hidx]
    rcases Nat.lt_trichotomy j rs.length with hlt | rfl | hgt
    · rw [if_neg (by omega), List.getElem?_append_left hlt, List.getElem?_append_left hlt]
    · simp [hunit, ColorSeqUnit.ofRun]
    · rw [if_neg (by omega), List.getElem?_eq_none (by simp; omega), List.getElem?_eq_none (by simp; omega)]
  · rw [if_neg (Ne.symm hc)] at hruns
    simp only [hc, ↓reduceIte]
    refine ⟨⟨rs ++ [r], ⟨1, row.get i⟩, by rw [hruns]; simp, rfl, by simp [ColorSeqUnit.ofRun], by simp [hidx]⟩,
      fun j => ?_⟩
    rw [hruns, Buf.get_store, hget, hrs, hidx]
    rcases Nat.lt_trichotomy j (rs.length + 1) with hlt | rfl | hgt
    · have hlen : j < (rs ++ [r]).length := by simpa using hlt
      rw [if_neg (by omega), show rs ++ [r, ⟨1, row.get i⟩] = rs ++ [r] ++ [⟨1, row.get i⟩] by simp,
        List.getElem?_append_left hlen]
    · simp [ColorSeqUnit.ofRun]
    · rw [if_neg (by omega), List.getElem?_eq_none (by simp; omega), List.getElem?_eq_none (by simp; omega)]

/-- The buffer holds the maximal runs of the row, and the value returned is the index of the last. -/
theorem getBw_runs (row : Buf ℕ Point) {n : ℕ} (hn : 0 < n) (seq : Buf ℕ ColorSeqUnit) :
    (getBwContinuousSeqOfRow row n seq).1 + 1 = (runs Point.c (points row n)).length ∧
    ∀ j, (getBwContinuousSeqOfRow row n seq).2.get j =
      (((runs Point.c (points row n))[j]?).map ColorSeqUnit.ofRun).getD (seq.get j) := by
  have h0 : SeqInv row seq 1 ⟨row.get 0, ⟨1, row.get 0⟩, 0, seq.store 0 ⟨1, row.get 0⟩⟩ := by
    refine ⟨⟨[], ⟨1, row.get 0⟩, rfl, rfl, rfl, rfl⟩, fun j => ?_⟩
    rw [Buf.get_store]
    cases j with
    | zero => rfl
    | succ j => rfl
  have h := forLoop_inv (SeqInv row seq) hn h0 fun i s _ _ hi => hi.step
  obtain ⟨⟨rs, r, hrs, -, -, hidx⟩, hget⟩ := h
  exact ⟨by rw [getBwContinuousSeqOfRow, hrs, List.length_append]; exact congrArg (· + 1) hidx, hget⟩

/-! ### Acceptance -/

theorem isColLineRow_eq (seq : Buf ℕ ColorSeqUnit) (us : List ColorSeqUnit)
    (hget : ∀ j (h : j < us.length), seq.get j = us[j]) {seqLen : ℕ} (hlen : seqLen + 1 = us.length)
    (k : ℕ) : isColLineRow seq seqLen k = (k == us.countP (·.endP.c = DOT)) := by
  have h : forLoop 0 (seqLen + 1) (fun visibleDotSeqCount i =>
      if (seq.get i).endP.c = DOT then visibleDotSeqCount + 1 else visibleDotSeqCount) 0 =
      (us.take (seqLen + 1)).countP (·.endP.c = DOT) := by
    refine forLoop_inv (fun i n => n = (us.take i).countP (·.endP.c = DOT)) (Nat.zero_le _) rfl ?_
    intro i n _ hi hn
    have hlt : i < us.length := by omega
    rw [hn, hget i hlt, List.take_succ_eq_append_getElem hlt, List.countP_append, List.countP_singleton]
    by_cases hc : us[i].endP.c = DOT <;> simp [hc]
  rw [hlen, List.take_length] at h
  unfold isColLineRow
  simp only [hlen, h]

section
variable (seq : Buf ℕ ColorSeqUnit) (us : List ColorSeqUnit) (unset : ℕ → ColorSeqUnit)
  (hget : ∀ j, seq.get j = us[j]?.getD (unset j)) (hx : (us.map fun u => u.endP.x).Pairwise (· < ·))
  (h0 : ∀ u ∈ us, 0 ≤ u.endP.x) (data : Buf ℕ Range) (offset : ℕ)
include hget hx h0

theorem locate_pairs :
    forLoop 0 (us.length / 2) (fun s j => locateStep seq offset s (2 * j)) ⟨0, data⟩ =
      ⟨us.length / 2, data.storeAll offset ((pairs (us.map ColorSeqUnit.endP)).map fun p => ⟨p.1, p.2⟩)⟩ := by
  set rs : List Range := (pairs (us.map ColorSeqUnit.endP)).map fun p => ⟨p.1, p.2⟩ with hrs
  have hlen : rs.length = us.length / 2 := by simp [hrs, length_pairs]
  suffices h : forLoop 0 (us.length / 2) (fun s j => locateStep seq offset s (2 * j)) ⟨0, data⟩ =
      ⟨us.length / 2, data.storeAll offset (rs.take (us.length / 2))⟩ by
    rw [h, List.take_of_length_le (Nat.le_of_eq hlen)]
  refine forLoop_inv (fun j (s : LocateState) => s = ⟨j, data.storeAll offset (rs.take j)⟩)
    (Nat.zero_le _) rfl ?_
  intro j s _ hj hs
  have h1 : 2 * j + 1 < us.length := by omega
  have hlt : j < rs.length := by omega
  have hrj : rs[j] = ⟨us[2 * j].endP, us[2 * j + 1].endP⟩ := by
    have := getElem?_pairs (us.map ColorSeqUnit.endP) j
    rw [List.getElem?_eq_getElem (by simpa [hrs] using hlt), List.getElem?_eq_getElem (by simp; omega),
      List.getElem?_eq_getElem (by simp; omega)] at this
    simp only [hrs, List.getElem_map, Option.bind_some, Option.map_some, Option.some.injEq] at this ⊢
    rw [this]
  have hlt' : us[2 * j].endP.x < us[2 * j + 1].endP.x := by
    have := List.pairwise_iff_getElem.1 hx (2 * j) (2 * j + 1) (by simp; omega) (by simpa using h1) (by omega)
    simpa using this
  have hpos := h0 us[2 * j] (List.getElem_mem _)
  -- an end point that is set lies right of a point of the row, so it is not the origin
  have hne : ¬ (us[2 * j + 1].endP.x = 0 ∧ us[2 * j + 1].endP.y = 0) := by omega
  have hnle : ¬ us[2 * j].endP.x > us[2 * j + 1].endP.x := by omega
  rw [List.take_succ_eq_append_getElem hlt, Buf.storeAll_concat, hrj, hs]
  unfold locateStep
  simp only [hget, List.getElem?_eq_getElem h1, List.getElem?_eq_getElem (Nat.lt_of_succ_lt h1),
    Option.getD_some, hne, hnle, ↓reduceIte]
  rw [List.length_take, Nat.min_eq_left (Nat.le_of_lt hlt)]

end

/-- What the last iteration makes of the last of an odd number of units: it is paired with the unit
behind it, which was not written for this row. -/
def lastRange (unset : Point) (row : List Point) : List Range :=
  match row.getLast? with
  | none => []
  | some p =>
    if (ends Point.c row).length % 2 = 0 ∨ (unset.x = 0 ∧ unset.y = 0) ∨ p.x > unset.x then []
    else [⟨p, unset⟩]

/-- The ranges a row stores when its unit buffer was handed out with the contents `seqHeap`. -/
def storedRanges (seqHeap : ℕ → ColorSeqUnit) (row : List Point) : List Range :=
  rowRanges row ++ lastRange (seqHeap (ends Point.c row).length).endP row

theorem storedRanges_zero (row : List Point) : storedRanges (fun _ => zeroUnit) row = rowRanges row := by
  have : lastRange zeroPoint row = [] := by
    unfold lastRange
    split
    · rfl
    · exact if_pos (Or.inr (Or.inl ⟨rfl, rfl⟩))
  rw [storedRanges, zeroUnit, this, List.append_nil]

theorem locate_eq (seq : Buf ℕ ColorSeqUnit) (seqHeap : ℕ → ColorSeqUnit) (row : List Point)
    (us : List ColorSeqUnit) (hends : us.map ColorSeqUnit.endP = ends Point.c row)
    (hget : ∀ j, seq.get j = us[j]?.getD (seqHeap j)) {seqLen : ℕ} (hlen : seqLen + 1 = us.length)
    (hx : (us.map fun u => u.endP.x).Pairwise (· < ·)) (h0 : ∀ u ∈ us, 0 ≤ u.endP.x)
    (data : Buf ℕ Range) (st : Statics) :
    locateColLineCoordRange seq seqLen data st =
      (data.storeAll st.offset (storedRanges seqHeap row),
        ⟨st.offset + (storedRanges seqHeap row).length⟩) := by
  have hpairs := locate_pairs seq us seqHeap hget hx h0 data st.offset
  rw [hends, ← rowRanges] at hpairs
  have hlen' : us.length = (ends Point.c row).length := by rw [← hends, List.length_map]
  have hrlen : (rowRanges row).length = us.length / 2 := by
    rw [rowRanges, List.length_map, length_pairs, hlen']
  unfold locateColLineCoordRange
  rcases Nat.mod_two_eq_zero_or_one us.length with heven | hodd
  · have hnil : lastRange (seqHeap (ends Point.c row).length).endP row = [] := by
      unfold lastRange
      split
      · rfl
      · exact if_pos (Or.inl (hlen' ▸ heven))
    rw [show seqLen / 2 + 1 = us.length / 2 by omega, hpairs, storedRanges, hnil, List.append_nil, hrlen]
  · -- one more iteration, on the last unit
    have hlast : us[2 * (us.length / 2)]? = us.getLast? := by
      rw [List.getLast?_eq_getElem?]; congr 1; omega
    have hnone : us[us.length]? = none := List.getElem?_eq_none le_rfl
    have hrow : us.getLast?.map ColorSeqUnit.endP = row.getLast? := by
      rw [← List.getLast?_map, hends, getLast?_ends]
    obtain ⟨u, hu⟩ : ∃ u, us.getLast? = some u :=
      Option.isSome_iff_exists.1 (by rw [List.getLast?_isSome]; rintro rfl; simp at hodd)
    rw [hu, Option.map_some] at hrow
    rw [show seqLen / 2 + 1 = us.length / 2 + 1 by omega, forLoop_succ (Nat.zero_le _), hpairs,
      storedRanges, lastRange, ← hrow, ← hlen']
    unfold locateStep
    simp only [hget, hlast, hu, show 2 * (us.length / 2) + 1 = us.length by omega, hnone,
      Option.getD_some, Option.getD_none, hodd]
    generalize (seqHeap us.length).endP = unset
    by_cases h1 : unset.x = 0 ∧ unset.y = 0
    · simp [h1, hrlen]
    by_cases h2 : u.endP.x > unset.x
    · simp [h1, h2, hrlen]
    · have h3 : ¬(1 = 0 ∨ (unset.x = 0 ∧ unset.y = 0) ∨ u.endP.x > unset.x) := by omega
      rw [if_neg h1, if_neg h2, if_neg h3, List.length_append, Buf.storeAll_append, hrlen]
      rfl

def units (row : List Point) : List ColorSeqUnit := (runs Point.c row).map ColorSeqUnit.ofRun

theorem map_endP_units (row : List Point) : (units row).map ColorSeqUnit.endP = ends Point.c row := by
  rw [units, List.map_map]; rfl

theorem countP_units (row : List Point) : (units row).countP (·.endP.c = DOT) = dotRuns row := by
  rw [dotRuns, ← map_endP_units, List.countP_map]; rfl

theorem getBw_units (row : Buf ℕ Point) {n : ℕ} (hn : 0 < n) (seqHeap : ℕ → ColorSeqUnit) :
    (getBwContinuousSeqOfRow row n (Buf.malloc seqHeap)).1 + 1 = (units (points row n)).length ∧
    ∀ j, (getBwContinuousSeqOfRow row n (Buf.malloc seqHeap)).2.get j =
      (units (points row n))[j]?.getD (seqHeap j) := by
  obtain ⟨hlen, hget⟩ := getBw_runs row hn (Buf.malloc seqHeap)
  exact ⟨by rw [hlen, units, List.length_map], fun j => by rw [hget, units, List.getElem?_map]; rfl⟩

theorem isColLineRow_getBw (row : Buf ℕ Point) {n : ℕ} (hn : 0 < n) (seqHeap : ℕ → ColorSeqUnit) (k : ℕ) :
    let q := getBwContinuousSeqOfRow row n (Buf.malloc seqHeap)
    isColLineRow q.2 q.1 k = (k == dotRuns (points row n)) := by
  intro q
  obtain ⟨hlen, hget⟩ := getBw_units row hn seqHeap
  rw [isColLineRow_eq q.2 (units (points row n))
    (fun j hj => by rw [hget, List.getElem?_eq_getElem hj, Option.getD_some]) hlen, countP_units]

/-- A row with `ctx->width` dot runs is searched for ranges, any other is passed over. -/
theorem rowProcessor_spec (seqHeap : ℕ → ColorSeqUnit) (row : Buf ℕ Point) {n : ℕ} (hn : 0 < n)
    (s : ScanState) : rowProcessor seqHeap row n s =
      if dotRuns (points row n) = s.ctx.width then
        let q := getBwContinuousSeqOfRow row n (Buf.malloc seqHeap)
        let l := locateColLineCoordRange q.2 q.1 s.ctx.data s.statics
        ⟨⟨s.ctx.width, s.ctx.height + 1, l.1⟩, l.2⟩
      else s := by
  have haccept := isColLineRow_getBw row hn seqHeap s.ctx.width
  unfold rowProcessor
  simp only [haccept, beq_iff_eq, eq_comm (a := s.ctx.width)]

/-- The effect of a row of points at increasing `x`: an accepted one appends its ranges. -/
theorem rowProcessor_eq (seqHeap : ℕ → ColorSeqUnit) (row : Buf ℕ Point) {n : ℕ} (hn : 0 < n)
    (hx : ((points row n).map Point.x).Pairwise (· < ·)) (h0 : ∀ p ∈ points row n, 0 ≤ p.x)
    (s : ScanState) : rowProcessor seqHeap row n s =
      if dotRuns (points row n) = s.ctx.width then
        let rs := storedRanges seqHeap (points row n)
        ⟨⟨s.ctx.width, s.ctx.height + 1, s.ctx.data.storeAll s.statics.offset rs⟩,
          ⟨s.statics.offset + rs.length⟩⟩
      else s := by
  obtain ⟨hlen, hget⟩ := getBw_units row hn seqHeap
  have hends := map_endP_units (points row n)
  have hsub : ((units (points row n)).map ColorSeqUnit.endP).Sublist (points row n) :=
    hends ▸ ends_sublist Point.c _
  have hux : ((units (points row n)).map fun u => u.endP.x).Pairwise (· < ·) := by
    have := hx.sublist (hsub.map Point.x)
    rwa [List.map_map] at this
  have hu0 : ∀ u ∈ units (points row n), 0 ≤ u.endP.x := fun u hu =>
    h0 _ (hsub.subset (List.mem_map_of_mem hu))
  have hlocate := locate_eq _ seqHeap _ _ hends hget hlen hux hu0 s.ctx.data s.statics
  rw [rowProcessor_spec seqHeap row hn]
  simp only [hlocate]

/-! ### How many ranges -/

def dotEnds (row : List Point) : Bool := row.head?.any (·.c = DOT) && row.getLast?.any (·.c = DOT)

/-- In a two-coloured row there are as many ranges as dot runs, one fewer when it begins and ends with
a dot. -/
theorem dotRuns_eq (row : List Point) (h2 : ∀ p ∈ row, p.c = DOT ∨ p.c = BLANK) :
    dotRuns row = (rowRanges row).length + (dotEnds row).toNat := by
  have hmem : ∀ p ∈ ends Point.c row, p.c = DOT ∨ p.c = BLANK := fun p hp =>
    h2 p ((ends_sublist Point.c row).subset hp)
  have hchain : (ends Point.c row).IsChain fun p q => decide (p.c = DOT) ≠ decide (q.c = DOT) := by
    refine List.IsChain.imp_of_mem_imp ?_ (isChain_ends Point.c row)
    intro p q hp hq hne heq
    rcases hmem p hp with h | h <;> rcases hmem q hq with h' | h' <;>
      simp_all [DOT, BLANK]
  have hhead : (ends Point.c row).head?.any (fun p => decide (p.c = DOT)) =
      row.head?.any fun p => decide (p.c = DOT) := by
    have := congrArg (Option.any fun c => decide (c = DOT)) (key_head_ends Point.c row)
    simpa [Option.any_map, Function.comp_def] using this
  rw [dotRuns, countP_of_alternating _ _ hchain, hhead, getLast?_ends, rowRanges, List.length_map,
    length_pairs, dotEnds]

end CWorkspace.Pic
