import Mathlib.Algebra.BigOperators.Ring.Finset
import CWorkspace.Pic.Rows

/-!
# The unit buffer of one row

What `_get_bw_continuous_seq_of_row` leaves in its buffer (`getBw_segments`), which of its cells it
stores into (`written_below_iff`), and when `rowProcessor` lets a cell it did not store into influence
its result (`rowProcessor_independent_iff`). The runs are those of `List.splitBy`.
-/

namespace CWorkspace.Pic

def maximalRuns (row : List Point) : List (List Point) := row.splitBy fun p q => p.c == q.c

def colourChanges (row : Buf ℕ Point) (n : ℕ) : ℕ :=
  (List.range (n - 1)).countP fun x => (row.get x).c ≠ (row.get (x + 1)).c

/-! ### Runs and units -/

section
variable (row : List Point)

theorem runs_maximalRuns : (runs Point.c row).map (fun r => (r.count, some r.last)) =
    (maximalRuns row).map fun g => (g.length, g.getLast?) := runs_eq_splitBy Point.c row

theorem length_maximalRuns : (maximalRuns row).length = (runs Point.c row).length := by
  rw [← List.length_map fun g : List Point => (g.length, g.getLast?), ← runs_maximalRuns, List.length_map]

theorem dotRuns_eq_maximalRuns :
    dotRuns row = (maximalRuns row).countP fun g => g.all fun p => p.c = DOT := by
  have hends : (ends Point.c row).map some = (maximalRuns row).map List.getLast? := by
    have := congrArg (List.map Prod.snd) (runs_maximalRuns row)
    rw [ends, List.map_map]
    rwa [List.map_map, List.map_map] at this
  have hcount : dotRuns row = ((ends Point.c row).map some).countP (Option.any fun p => p.c = DOT) := by
    rw [List.countP_map]; rfl
  rw [hcount, hends, List.countP_map]
  refine List.countP_congr fun g hg => ?_
  cases hlast : g.getLast? with
  | none => exact absurd (List.getLast?_eq_none_iff.1 hlast) (List.ne_nil_of_mem_splitBy hg)
  | some q =>
    simp only [Function.comp_apply, hlast, Option.any_some, List.all_eq_true, decide_eq_true_eq]
    constructor
    · intro hq p hp
      exact (key_eq_of_mem_splitBy Point.c hg hp hlast).trans hq
    · intro hall
      exact hall q (List.mem_of_getLast? hlast)

/-! The units of a row are its runs. -/

theorem count_pos_of_mem_units {u : ColorSeqUnit} (h : u ∈ units row) : 1 ≤ u.count := by
  obtain ⟨r, hr, rfl⟩ := List.mem_map.1 h
  have := count_pos_of_mem_runs Point.c hr
  show (1 : ℤ) ≤ r.count
  omega

theorem sum_count_units : ((units row).map ColorSeqUnit.count).sum = row.length := by
  have hcast : (units row).map ColorSeqUnit.count = ((runs Point.c row).map Run.count).map Nat.cast := by
    rw [units, List.map_map, List.map_map]; rfl
  rw [hcast, ← Nat.cast_list_sum, sum_count_runs]

theorem expand_units :
    ((units row).flatMap fun u => List.replicate u.count.toNat u.endP.c) = row.map Point.c := by
  rw [← expand_runs Point.c, units, List.flatMap_map]; rfl

theorem isChain_units : (units row).IsChain fun u v => u.endP.c ≠ v.endP.c := by
  have hchain := isChain_ends Point.c row
  rwa [← map_endP_units, List.isChain_map] at hchain

theorem length_units : (units row).length = (maximalRuns row).length := by
  rw [length_maximalRuns, units, List.length_map]

theorem getLast?_maximalRuns : (maximalRuns row).map List.getLast? = (units row).map fun u => some u.endP := by
  have hruns := congrArg (List.map Prod.snd) (runs_maximalRuns row)
  rw [List.map_map, List.map_map] at hruns
  rw [units, List.map_map]
  exact hruns.symm

end

theorem getBw_segments (row : Buf ℕ Point) {n : ℕ} (hn : 1 ≤ n) (k : ℕ) (seqHeap : ℕ → ColorSeqUnit) :
    let s := (getBwContinuousSeqOfRow row n (Buf.malloc seqHeap)).1
    let cells := (getBwContinuousSeqOfRow row n (Buf.malloc seqHeap)).2
    (∀ j ≤ s, 1 ≤ (cells.get j).count) ∧
    ((List.range (s + 1)).map fun j => (cells.get j).count).sum = n ∧
    (∀ j < s, (cells.get j).endP.c ≠ (cells.get (j + 1)).endP.c) ∧
    ((List.range (s + 1)).flatMap fun j =>
      List.replicate (cells.get j).count.toNat (cells.get j).endP.c) = (points row n).map Point.c ∧
    (maximalRuns (points row n)).length = s + 1 ∧
    (∀ j ≤ s, ((maximalRuns (points row n))[j]?).bind List.getLast? = some (cells.get j).endP) ∧
    (isColLineRow cells s k = true ↔
      ((maximalRuns (points row n)).countP fun g => g.all fun p => p.c = DOT) = k) := by
  intro s cells
  obtain ⟨hlen, hget⟩ := getBw_units row hn seqHeap
  set us := units (points row n) with hus
  have hget' : ∀ j (hj : j < us.length), cells.get j = us[j] := fun j hj => by
    rw [hget, List.getElem?_eq_getElem hj, Option.getD_some]
  have hcells : (List.range (s + 1)).map cells.get = us :=
    List.ext_getElem (by simpa using hlen) fun j _ hj => by
      rw [List.getElem_map, List.getElem_range, hget' j hj]
  refine ⟨fun j hj => ?_, ?_, fun j hj => ?_, ?_, ?_, fun j hj => ?_, ?_⟩
  · rw [hget' j (by omega)]
    exact count_pos_of_mem_units _ (List.getElem_mem _)
  · have hsum := sum_count_units (points row n)
    rw [← hus, ← hcells, List.map_map] at hsum
    rw [← Function.comp_def, hsum]
    simp [points]
  · have hchain : us.IsChain fun u v => u.endP.c ≠ v.endP.c := isChain_units (points row n)
    rw [hget' j (by omega), hget' (j + 1) (by omega)]
    exact List.isChain_iff_getElem.1 hchain j (by omega)
  · have hexpand := expand_units (points row n)
    rwa [← hus, ← hcells, List.flatMap_map] at hexpand
  · rw [← length_units, ← hus, hlen]
  · have hlast := congrArg (fun l => l[j]?) (getLast?_maximalRuns (points row n))
    rw [List.getElem?_map, List.getElem?_map, ← hus, List.getElem?_eq_getElem (by omega : j < us.length)] at hlast
    obtain ⟨g, hg, heq⟩ := Option.map_eq_some_iff.1 hlast
    rw [hg, hget' j (by omega), Option.bind_some, heq]
  · rw [isColLineRow_eq cells us hget' hlen, hus, countP_units, ← dotRuns_eq_maximalRuns, beq_iff_eq, eq_comm]

/-- A row of `n` points that begins with a dot and changes its colour at every step. -/
def stripedRow : Buf ℕ Point := Buf.malloc fun x => ⟨x, 0, if x % 2 = 0 then DOT else BLANK⟩

theorem getBw_segments_stripedRow :
    ((maximalRuns (points stripedRow 3)).countP fun g => g.all fun p => p.c = DOT) = 2 ∧
    isColLineRow (getBwContinuousSeqOfRow stripedRow 3 (Buf.malloc fun _ => zeroUnit)).2
      (getBwContinuousSeqOfRow stripedRow 3 (Buf.malloc fun _ => zeroUnit)).1 2 = true :=
  ⟨by decide, (getBw_segments stripedRow (by decide) 2 fun _ => zeroUnit).2.2.2.2.2.2.2 (by decide)⟩

/-- The scanner's index counts the changes of colour, and it has stored into every cell up to it. -/
structure StoreInv (row : Buf ℕ Point) (i : ℕ) (s : SeqState) : Prop where
  last : s.lastP = row.get (i - 1)
  index : s.seqIndex = colourChanges row i
  written : ∀ j, s.continuousDotSeq.Written j ↔ j ≤ s.seqIndex

theorem StoreInv.step {row : Buf ℕ Point} {i : ℕ} {s : SeqState} (h : StoreInv row i s) (hi : 1 ≤ i) :
    StoreInv row (i + 1) (seqStep row s i) := by
  have hchanges : colourChanges row (i + 1) =
      colourChanges row i + if (row.get (i - 1)).c ≠ (row.get i).c then 1 else 0 := by
    obtain ⟨i, rfl⟩ : ∃ m, i = m + 1 := ⟨i - 1, by omega⟩
    rw [colourChanges, colourChanges, Nat.add_sub_cancel, Nat.add_sub_cancel, List.range_succ,
      List.countP_append, List.countP_singleton]
    simp
  unfold seqStep
  by_cases hc : (row.get i).c = s.lastP.c
  · rw [← h.last, if_neg (by simp [hc]), Nat.add_zero] at hchanges
    simp only [hc, ↓reduceIte]
    refine ⟨rfl, h.index.trans hchanges.symm, fun j => ?_⟩
    rw [Buf.written_store, h.written]
    show j = s.seqIndex ∨ j ≤ s.seqIndex ↔ j ≤ s.seqIndex
    omega
  · rw [← h.last, if_pos (Ne.symm hc)] at hchanges
    simp only [hc, ↓reduceIte]
    refine ⟨rfl, by rw [hchanges, h.index], fun j => ?_⟩
    rw [Buf.written_store, h.written]
    show j = s.seqIndex + 1 ∨ j ≤ s.seqIndex ↔ j ≤ s.seqIndex + 1
    omega

theorem storeInv_getBw (row : Buf ℕ Point) {n : ℕ} (hn : 1 ≤ n) (seqHeap : ℕ → ColorSeqUnit) :
    ∃ s, StoreInv row n s ∧
      getBwContinuousSeqOfRow row n (Buf.malloc seqHeap) = (s.seqIndex, s.continuousDotSeq) := by
  have h0 : StoreInv row 1 ⟨row.get 0, ⟨1, row.get 0⟩, 0, (Buf.malloc seqHeap).store 0 ⟨1, row.get 0⟩⟩ := by
    refine ⟨rfl, rfl, fun j => ?_⟩
    rw [Buf.written_store]
    simp [Buf.Written]
  exact ⟨_, forLoop_inv (StoreInv row) hn h0 fun i s hi _ hs => hs.step hi, rfl⟩

theorem getBw_index (row : Buf ℕ Point) {n : ℕ} (hn : 1 ≤ n) (seqHeap : ℕ → ColorSeqUnit) :
    (getBwContinuousSeqOfRow row n (Buf.malloc seqHeap)).1 = colourChanges row n := by
  obtain ⟨s, hs, heq⟩ := storeInv_getBw row hn seqHeap
  rw [heq, ← hs.index]

theorem getBw_written (row : Buf ℕ Point) {n : ℕ} (hn : 1 ≤ n) (seqHeap : ℕ → ColorSeqUnit) (j : ℕ) :
    (getBwContinuousSeqOfRow row n (Buf.malloc seqHeap)).2.Written j ↔ j ≤ colourChanges row n := by
  obtain ⟨s, hs, heq⟩ := storeInv_getBw row hn seqHeap
  rw [heq, ← hs.index]
  exact hs.written j

/-- `Malloc(ColorSeqUnit, length / 2 + 1)` is enough exactly for the rows that change their colour at
most `length / 2` times. -/
theorem written_below_iff (row : Buf ℕ Point) {n : ℕ} (hn : 1 ≤ n) (seqHeap : ℕ → ColorSeqUnit) :
    (∀ j, (getBwContinuousSeqOfRow row n (Buf.malloc seqHeap)).2.Written j → j < n / 2 + 1) ↔
      colourChanges row n ≤ n / 2 := by
  simp only [getBw_written row hn]
  constructor
  · intro h
    exact Nat.le_of_lt_succ (h _ (Nat.le_refl _))
  · intro h j hj
    omega

theorem written_below_iff_stripedRow : (∀ j, (getBwContinuousSeqOfRow stripedRow 2
    (Buf.malloc fun _ => zeroUnit)).2.Written j → j < 2 / 2 + 1) ∧ colourChanges stripedRow 2 = 1 :=
  ⟨(written_below_iff stripedRow (by decide) fun _ => zeroUnit).2 (by decide), by decide⟩

/-- Three points, dot, blank, dot, take three units; two are allocated. -/
theorem stripedRow_stores_outside : ¬ ∀ (row : Buf ℕ Point) (n : ℕ) (seqHeap : ℕ → ColorSeqUnit), 1 ≤ n →
    ∀ j, (getBwContinuousSeqOfRow row n (Buf.malloc seqHeap)).2.Written j → j < n / 2 + 1 := by
  intro h
  have hwritten : (getBwContinuousSeqOfRow stripedRow 3 (Buf.malloc fun _ => zeroUnit)).2.Written 2 := by
    unfold Buf.Written
    decide
  exact absurd (h stripedRow 3 _ (by decide) 2 hwritten) (by decide)

/-! ### What the stale cells can do -/

/-- The same height, offset and `Range` cells. -/
def SameResult (s s' : ScanState) : Prop :=
  s.ctx.height = s'.ctx.height ∧ s.statics.offset = s'.statics.offset ∧
    ∀ i, s.ctx.data.get i = s'.ctx.data.get i

theorem locateStep_congr {seq seq' : Buf ℕ ColorSeqUnit} {i : ℕ} (h : seq.get i = seq'.get i)
    (h' : seq.get (i + 1) = seq'.get (i + 1)) (offset : ℕ) (s : LocateState) :
    locateStep seq offset s i = locateStep seq' offset s i := by
  unfold locateStep
  rw [h, h']

def locatedPairs (row : List Point) (data : Buf ℕ Range) (offset : ℕ) : LocateState :=
  forLoop 0 ((units row).length / 2) (fun s j =>
    locateStep ((Buf.malloc fun _ => zeroUnit).storeAll 0 (units row)) offset s (2 * j)) ⟨0, data⟩

section
variable (row : Buf ℕ Point) {n : ℕ} (hn : 0 < n)
include hn

/-- Only with an odd number of units is there an iteration that reads a cell behind them. -/
theorem locate_cases (data : Buf ℕ Range) (st : Statics) (seqHeap : ℕ → ColorSeqUnit) :
    let q := getBwContinuousSeqOfRow row n (Buf.malloc seqHeap)
    let pairs := locatedPairs (points row n) data st.offset
    let last := if (units (points row n)).length % 2 = 0 then pairs else locateStep q.2 st.offset pairs q.1
    locateColLineCoordRange q.2 q.1 data st = (last.data, ⟨st.offset + last.rangeCount⟩) := by
  intro q pairs last
  obtain ⟨hlen, hget⟩ := getBw_units row hn seqHeap
  have hpairs : forLoop 0 ((units (points row n)).length / 2)
      (fun s j => locateStep q.2 st.offset s (2 * j)) ⟨0, data⟩ = pairs := by
    refine forLoop_congr fun j s _ hj => locateStep_congr ?_ ?_ _ _ <;>
      rw [hget, Buf.get_storeAll, if_neg (Nat.not_lt_zero _), Nat.sub_zero,
        List.getElem?_eq_getElem (by omega)] <;> rfl
  have hlen' : q.1 + 1 = (units (points row n)).length := hlen
  have hloop : forLoop 0 (q.1 / 2 + 1) (fun s j => locateStep q.2 st.offset s (2 * j)) ⟨0, data⟩ = last := by
    rcases Nat.mod_two_eq_zero_or_one (units (points row n)).length with heven | hodd
    · rw [show q.1 / 2 + 1 = (units (points row n)).length / 2 by omega, hpairs]
      exact (if_pos heven).symm
    · rw [show q.1 / 2 + 1 = (units (points row n)).length / 2 + 1 by omega, forLoop_succ (Nat.zero_le _),
        hpairs, show 2 * ((units (points row n)).length / 2) = q.1 by omega]
      exact (if_neg (by omega)).symm
  unfold locateColLineCoordRange
  rw [hloop]

/-- The stale unit behind the runs decides whether the last of an odd number of runs yields a range. -/
theorem offset_of_odd (seqHeap : ℕ → ColorSeqUnit) (s : ScanState)
    (haccept : dotRuns (points row n) = s.ctx.width) (hodd : (units (points row n)).length % 2 = 1) :
    let p := ((units (points row n)).getLastD zeroUnit).endP
    let unset := (seqHeap (units (points row n)).length).endP
    (rowProcessor seqHeap row n s).statics.offset = s.statics.offset +
      ((locatedPairs (points row n) s.ctx.data s.statics.offset).rangeCount +
        if (unset.x = 0 ∧ unset.y = 0) ∨ p.x > unset.x then 0 else 1) := by
  intro p unset
  obtain ⟨hlen, hget⟩ := getBw_units row hn seqHeap
  set q := getBwContinuousSeqOfRow row n (Buf.malloc seqHeap) with hq
  have hlast : (q.2.get q.1).endP = p := by
    rw [hget, show q.1 = (units (points row n)).length - 1 by omega, ← List.getLast?_eq_getElem?]
    simp only [p, List.getLastD_eq_getLast?]
    cases hl : (units (points row n)).getLast? with
    | none => rw [List.getLast?_eq_none_iff.1 hl] at hodd; exact absurd hodd (by decide)
    | some u => rfl
  have hnext : q.2.get (q.1 + 1) = seqHeap (units (points row n)).length := by
    rw [hlen, hget, List.getElem?_eq_none (Nat.le_refl _)]; rfl
  have hcases := locate_cases row hn s.ctx.data s.statics seqHeap
  simp only [if_neg (show ¬ (units (points row n)).length % 2 = 0 by omega), ← hq] at hcases
  rw [rowProcessor_spec seqHeap row hn, if_pos haccept]
  simp only [← hq, hcases, locateStep, hlast, hnext, gt_iff_lt]
  rw [Nat.add_right_inj]
  by_cases h1 : unset.x = 0 ∧ unset.y = 0
  · simp [h1, unset]
  by_cases h2 : p.x > unset.x
  · simp only [h1, h2, unset, or_true, if_true, if_false, Nat.add_zero]
  · simp only [h1, h2, unset, or_false, if_false]

end

/-- The result does not depend on what the unit buffer contained, unless the row is accepted and has an
odd number of maximal runs. -/
theorem rowProcessor_independent_iff (row : Buf ℕ Point) {n : ℕ} (hn : 0 < n) (s : ScanState) :
    (∀ seqHeap seqHeap' : ℕ → ColorSeqUnit,
      SameResult (rowProcessor seqHeap row n s) (rowProcessor seqHeap' row n s)) ↔
    ¬ (((maximalRuns (points row n)).countP fun g => g.all fun p => p.c = DOT) = s.ctx.width ∧
      (maximalRuns (points row n)).length % 2 = 1) := by
  have hlength : (units (points row n)).length = (maximalRuns (points row n)).length := by
    rw [length_maximalRuns, units, List.length_map]
  rw [← dotRuns_eq_maximalRuns, ← hlength]
  constructor
  · rintro h ⟨haccept, hodd⟩
    set p := ((units (points row n)).getLastD zeroUnit).endP with hp
    -- one buffer is cleared, the other holds an end point right of the row
    have hsame := (h (fun _ => zeroUnit) fun _ => ⟨1, ⟨max p.x 1, 0, BLANK⟩⟩).2.1
    rw [offset_of_odd row hn _ s haccept hodd, offset_of_odd row hn _ s haccept hodd, ← hp,
      if_pos (Or.inl ⟨rfl, rfl⟩), if_neg (by dsimp only; omega)] at hsame
    omega
  · intro h seqHeap seqHeap'
    rw [rowProcessor_spec seqHeap row hn, rowProcessor_spec seqHeap' row hn]
    by_cases haccept : dotRuns (points row n) = s.ctx.width
    · have heven : (units (points row n)).length % 2 = 0 := by
        by_contra hne
        exact h ⟨haccept, by omega⟩
      simp only [if_pos haccept, locate_cases row hn, if_pos heven]
      exact ⟨rfl, rfl, fun _ => rfl⟩
    · rw [if_neg haccept, if_neg haccept]
      exact ⟨rfl, rfl, fun _ => rfl⟩

theorem rowProcessor_independent_iff_stripedRow :
    (∀ seqHeap seqHeap' : ℕ → ColorSeqUnit, SameResult
      (rowProcessor seqHeap stripedRow 4 ⟨⟨2, 0, Buf.malloc fun _ => ⟨zeroPoint, zeroPoint⟩⟩, ⟨0⟩⟩)
      (rowProcessor seqHeap' stripedRow 4 ⟨⟨2, 0, Buf.malloc fun _ => ⟨zeroPoint, zeroPoint⟩⟩, ⟨0⟩⟩)) ∧
    (maximalRuns (points stripedRow 4)).length = 4 :=
  ⟨(rowProcessor_independent_iff stripedRow (by decide) _).2 (by decide), by decide⟩

/-- A row dot, blank, dot in a table of two columns, once before a cleared unit, once before one whose
end point lies right of the row. -/
theorem rowProcessor_sees_stale_unit : ¬ ∀ (row : Buf ℕ Point) (n : ℕ), 0 < n → ∀ (s : ScanState)
    (seqHeap seqHeap' : ℕ → ColorSeqUnit),
    SameResult (rowProcessor seqHeap row n s) (rowProcessor seqHeap' row n s) := by
  intro h
  have hsame := (h stripedRow 3 (by decide) ⟨⟨2, 0, Buf.malloc fun _ => ⟨zeroPoint, zeroPoint⟩⟩, ⟨0⟩⟩
    (fun _ => zeroUnit) fun _ => ⟨1, ⟨9, 0, DOT⟩⟩).2.1
  exact absurd hsame (by decide)

end CWorkspace.Pic
