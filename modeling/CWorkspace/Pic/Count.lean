import CWorkspace.Lib.FirstMax
import CWorkspace.Pic.Scan
import Mathlib.Algebra.BigOperators.Intervals
import Mathlib.Algebra.GroupWithZero.Nat
import Mathlib.Data.List.TakeWhile

/-!
# Counting dots

On an image `_count_dot_start_with_range` adds up the dots of the rows of its window, down to the first
row that is nearly all dots (`countDotStartWithRange_eq`), and `_scan_to_count_area_with_most_dot` returns
the first area with the largest sum (`scan_isFirstMax`); the sum is the number of dots in the window above
that row (`scan_least_maximal`).
-/

namespace CWorkspace.Pic

namespace Grid
variable (g : Grid)

def lineDots (r : Range) (y : ℕ) : ℕ :=
  (List.range' r.fromP.x.toNat (r.toP.x - r.fromP.x).toNat).countP fun x => g.dot x y

/-- At most 95% of the columns of the range are dots. -/
def Open (r : Range) (y : ℕ) : Prop := g.lineDots r y ≤ 95 * (r.toP.x - r.fromP.x).toNat / 100

instance (r : Range) : DecidablePred (g.Open r) := fun y => inferInstanceAs (Decidable (g.lineDots r y ≤ _))

def dotsFrom (r : Range) (y : ℕ) : ℕ :=
  (((List.range' y (g.height - y)).takeWhile fun y => g.Open r y).map (g.lineDots r)).sum

structure Inside (r : Range) : Prop where
  left : 0 ≤ r.fromP.x
  order : r.fromP.x ≤ r.toP.x
  right : r.toP.x ≤ g.width
  top : 0 ≤ r.fromP.y

end Grid

theorem countDotRows_succ (r : Range) (coorWidth : ℤ) (rows : ℕ) (y total : ℤ) (c : Buf ℤ Point) :
    countDotRows r coorWidth (rows + 1) y total c =
      if (countDotInLine r coorWidth y (0, c)).1 > ninetyFivePercent (r.toP.x - r.fromP.x) then
        (total, (countDotInLine r coorWidth y (0, c)).2)
      else countDotRows r coorWidth rows (y + 1) (total + (countDotInLine r coorWidth y (0, c)).1)
        (countDotInLine r coorWidth y (0, c)).2 := rfl

theorem ninetyFivePercent_natCast (n : ℕ) : ninetyFivePercent n = ((95 * n / 100 : ℕ) : ℤ) := rfl

section
variable {g : Grid} {coordinate : Buf ℤ Point} (hshow : g.Shows coordinate) {r : Range} (hr : g.Inside r)
include hshow hr

theorem countDotInLine_eq {y : ℕ} (hy : y < g.height) (count : ℤ) {c : Buf ℤ Point}
    (hc : c.get = coordinate.get) : (countDotInLine r g.width y (count, c)).1 = count + g.lineDots r y ∧
      (countDotInLine r g.width y (count, c)).2.get = coordinate.get := by
  obtain ⟨hleft, horder, hright, -⟩ := hr
  have h := forLoop_inv (fun i (s : ℤ × Buf ℤ Point) =>
      s.1 = count + ((List.range' r.fromP.x.toNat i).countP fun x => g.dot x y : ℕ) ∧ s.2.get = coordinate.get)
    (s := (count, c)) (f := fun s i =>
      if (s.2.load ((y : ℤ) * g.width + (r.fromP.x + (i : ℕ)))).1.c = DOT then
        (s.1 + 1, (s.2.load ((y : ℤ) * g.width + (r.fromP.x + (i : ℕ)))).2)
      else (s.1, (s.2.load ((y : ℤ) * g.width + (r.fromP.x + (i : ℕ)))).2))
      (Nat.zero_le (r.toP.x - r.fromP.x).toNat)
      ⟨by simp, hc⟩ ?_
  · exact h
  · rintro i ⟨n, c⟩ - hi ⟨hn, hc⟩
    dsimp only at hn hc
    have hx : r.fromP.x + (i : ℤ) = ((r.fromP.x.toNat + i : ℕ) : ℤ) := by omega
    have hpoint : c.get ((y : ℤ) * g.width + (r.fromP.x + i)) = g.point (r.fromP.x.toNat + i) y := by
      rw [hc, hx]; exact hshow _ (by omega) y hy
    have hcount : ((List.range' r.fromP.x.toNat (i + 1)).countP fun x => g.dot x y) =
        ((List.range' r.fromP.x.toNat i).countP fun x => g.dot x y) +
          (g.dot (r.fromP.x.toNat + i) y).toNat := by
      rw [List.range'_concat, List.countP_append, List.countP_singleton, Nat.one_mul]
      cases g.dot (r.fromP.x.toNat + i) y <;> rfl
    simp only [Buf.load_fst, Buf.load_snd, hpoint, g.point_eq_dot]
    rw [hcount]
    cases g.dot (r.fromP.x.toNat + i) y
    · exact ⟨by simpa using hn, hc⟩
    · refine ⟨?_, hc⟩
      show n + 1 = _
      rw [hn]
      push_cast
      simp [Int.add_assoc]

theorem countDotRows_eq (rows : ℕ) {y : ℕ} (hy : y + rows = g.height) (total : ℤ) {c : Buf ℤ Point}
    (hc : c.get = coordinate.get) : (countDotRows r g.width rows y total c).1 = total +
        ((((List.range' y rows).takeWhile fun y => g.Open r y).map (g.lineDots r)).sum : ℕ) ∧
      (countDotRows r g.width rows y total c).2.get = coordinate.get := by
  induction rows generalizing y total c with
  | zero => exact ⟨by simp [countDotRows], hc⟩
  | succ rows ih =>
    obtain ⟨hcount, hget⟩ := countDotInLine_eq hshow hr (y := y) (by omega) 0 hc
    have hnext := ih (y := y + 1) (by omega)
      (total + (countDotInLine r g.width y (0, c)).1) hget
    have hwidth : r.toP.x - r.fromP.x = ((r.toP.x - r.fromP.x).toNat : ℤ) := by have := hr.order; omega
    have hopen : (countDotInLine r g.width y (0, c)).1 > ninetyFivePercent (r.toP.x - r.fromP.x) ↔
        ¬ g.Open r y := by
      rw [hcount, hwidth, ninetyFivePercent_natCast, Grid.Open]
      omega
    rw [countDotRows_succ, List.range'_succ, List.takeWhile_cons]
    by_cases ho : g.Open r y
    · rw [if_neg fun h => hopen.1 h ho]
      simp only [ho, decide_true, if_true, List.map_cons, List.sum_cons]
      refine ⟨?_, hnext.2⟩
      have := hnext.1
      push_cast at this ⊢
      rw [this, hcount]
      omega
    · rw [if_pos (hopen.2 ho)]
      simp only [ho, decide_false, Bool.false_eq_true, if_false]
      exact ⟨by simp, hget⟩

theorem countDotStartWithRange_eq {c : Buf ℤ Point} (hc : c.get = coordinate.get) :
    (countDotStartWithRange r c g.width g.height).1 = g.dotsFrom r r.fromP.y.toNat ∧
      (countDotStartWithRange r c g.width g.height).2.get = coordinate.get := by
  have htop : r.fromP.y = (r.fromP.y.toNat : ℤ) := by have := hr.top; omega
  have hrows : ((g.height : ℤ) - r.fromP.y).toNat = g.height - r.fromP.y.toNat := by omega
  unfold countDotStartWithRange Grid.dotsFrom
  rw [hrows]
  rcases Nat.le_total r.fromP.y.toNat g.height with h | h
  · have := countDotRows_eq hshow hr (g.height - r.fromP.y.toNat) (y := r.fromP.y.toNat) (by omega) 0 hc
    rwa [← htop, Int.zero_add] at this
  · rw [Nat.sub_eq_zero_of_le h]
    exact ⟨rfl, hc⟩

end

theorem scan_spec {g : Grid} {coordinate : Buf ℤ Point} (hshow : g.Shows coordinate) (arr : Buf ℕ Range)
    {n : ℕ} (hn : 1 ≤ n) (hin : ∀ k < n, g.Inside (arr.get k)) :
    let s := scanToCountAreaWithMostDot arr n coordinate g.width g.height
    let score := fun k => g.dotsFrom (arr.get k) (arr.get k).fromP.y.toNat
    IsFirstMax score n s.markedAreaIndex ∧ s.totalDotCountOfArea = score s.markedAreaIndex := by
  intro s score
  obtain ⟨hcount, hget⟩ := countDotStartWithRange_eq hshow (hin 0 hn) rfl
  have h := forLoop_inv (fun n (s : MarkState) => IsFirstMax score n s.markedAreaIndex ∧
      s.totalDotCountOfArea = score s.markedAreaIndex ∧ s.answerAreaRangeArr.get = arr.get ∧
      s.coordinate.get = coordinate.get) hn (f := markStep g.width g.height)
    (s := ⟨0, (countDotStartWithRange (arr.get 0) coordinate g.width g.height).1, (arr.load 0).2,
      (countDotStartWithRange (arr.get 0) coordinate g.width g.height).2⟩)
    ⟨IsFirstMax.one score, hcount, rfl, hget⟩ ?_
  · exact ⟨h.1, h.2.1⟩
  · rintro i s - hi ⟨hmax, htotal, harr, hcoord⟩
    obtain ⟨hcount, hget⟩ := countDotStartWithRange_eq hshow (hin i hi) hcoord
    have hstep := hmax.step
    unfold markStep
    simp only [Buf.load_fst, Buf.load_snd, harr]
    rw [htotal, hcount]
    by_cases hlt : score s.markedAreaIndex < score i
    · rw [if_pos hlt] at hstep
      rw [if_pos (by exact_mod_cast hlt)]
      exact ⟨hstep, rfl, harr, hget⟩
    · rw [if_neg hlt] at hstep
      rw [if_neg (by exact_mod_cast hlt)]
      exact ⟨hstep, rfl, harr, hget⟩

theorem scan_isFirstMax {g : Grid} {coordinate : Buf ℤ Point} (hshow : g.Shows coordinate) (arr : Buf ℕ Range)
    {n : ℕ} (hn : 1 ≤ n) (hin : ∀ k < n, g.Inside (arr.get k)) :
    IsFirstMax (fun k => g.dotsFrom (arr.get k) (arr.get k).fromP.y.toNat) n
      (scanToCountAreaWithMostDot arr n coordinate g.width g.height).markedAreaIndex :=
  (scan_spec hshow arr hn hin).1

/-! ### The dots of an area, as a set of points -/

theorem takeWhile_range' (p : ℕ → Bool) (a m : ℕ) : (List.range' a m).takeWhile p =
    List.range' a (((List.range' a m).find? fun y => !p y).getD (a + m) - a) := by
  induction m generalizing a with
  | zero => simp
  | succ m ih =>
    rw [List.range'_succ, List.takeWhile_cons, List.find?_cons]
    cases hp : p a with
    | false => simp
    | true =>
      have hle : a + 1 ≤ ((List.range' (a + 1) m).find? fun y => !p y).getD (a + 1 + m) := by
        cases hf : (List.range' (a + 1) m).find? fun y => !p y with
        | none => exact Nat.le_add_right _ _
        | some y => exact (List.mem_range'_1.1 (List.mem_of_find?_eq_some hf)).1
      have hshift : a + (m + 1) = a + 1 + m := by omega
      simp only [Bool.not_true, if_true, hshift]
      rw [ih]
      obtain ⟨d, hd⟩ := Nat.exists_eq_add_of_le hle
      rw [hd, Nat.add_sub_cancel_left, Nat.add_assoc, Nat.add_sub_cancel_left, Nat.add_comm 1 d,
        List.range'_succ]

namespace Grid
variable (g : Grid)

/-- The first row from the top of the range on that is nearly all dots, or the height of the image. -/
def stopRow (r : Range) : ℕ :=
  ((List.range' r.fromP.y.toNat (g.height - r.fromP.y.toNat)).find? fun y => ¬ g.Open r y).getD g.height

def areaDots (r : Range) : ℕ :=
  ((Finset.range g.width ×ˢ Finset.range g.height).filter fun p =>
    r.fromP.x ≤ p.1 ∧ p.1 < r.toP.x ∧ r.fromP.y ≤ p.2 ∧ p.2 < g.stopRow r ∧ g.dot p.1 p.2).card

theorem stopRow_le (r : Range) : g.stopRow r ≤ g.height := by
  unfold stopRow
  cases hf : (List.range' r.fromP.y.toNat (g.height - r.fromP.y.toNat)).find? fun y => ¬ g.Open r y with
  | none => exact Nat.le_refl _
  | some y =>
    have := List.mem_range'_1.1 (List.mem_of_find?_eq_some hf)
    show y ≤ g.height
    omega

theorem dotsFrom_eq_sum (r : Range) : g.dotsFrom r r.fromP.y.toNat =
    ∑ y ∈ Finset.Ico r.fromP.y.toNat (g.stopRow r), g.lineDots r y := by
  have hrows : (List.range' r.fromP.y.toNat (g.height - r.fromP.y.toNat)).takeWhile (fun y => g.Open r y) =
      List.range' r.fromP.y.toNat (g.stopRow r - r.fromP.y.toNat) := by
    rw [takeWhile_range', stopRow]
    simp only [decide_not]
    cases hf : (List.range' r.fromP.y.toNat (g.height - r.fromP.y.toNat)).find? fun y => !decide (g.Open r y) with
    | some y => rfl
    | none =>
      show List.range' _ (r.fromP.y.toNat + (g.height - r.fromP.y.toNat) - _) = List.range' _ (g.height - _)
      rw [Nat.add_sub_cancel_left]
  rw [dotsFrom, hrows]
  rfl

theorem lineDots_eq_card {r : Range} (hr : g.Inside r) (y : ℕ) : g.lineDots r y =
    ((Finset.range g.width).filter fun x : ℕ => r.fromP.x ≤ x ∧ x < r.toP.x ∧ g.dot x y).card := by
  obtain ⟨hleft, horder, hright, -⟩ := hr
  have hcols : ((Finset.range g.width).filter fun x : ℕ => r.fromP.x ≤ x ∧ x < r.toP.x ∧ g.dot x y) =
      (Finset.Ico r.fromP.x.toNat r.toP.x.toNat).filter fun x => g.dot x y := by
    ext x
    simp only [Finset.mem_filter, Finset.mem_range, Finset.mem_Ico]
    constructor
    · rintro ⟨-, h1, h2, h3⟩
      exact ⟨by omega, h3⟩
    · rintro ⟨h1, h2⟩
      exact ⟨by omega, by omega, by omega, h2⟩
  rw [hcols, lineDots, show (r.toP.x - r.fromP.x).toNat = r.toP.x.toNat - r.fromP.x.toNat by omega,
    List.countP_eq_length_filter, show (fun x => g.dot x y) = fun x => decide (g.dot x y = true) by simp]
  rfl

theorem dotsFrom_eq_areaDots {r : Range} (hr : g.Inside r) : g.dotsFrom r r.fromP.y.toNat = g.areaDots r := by
  have hstop := g.stopRow_le r
  have hrows : Finset.Ico r.fromP.y.toNat (g.stopRow r) =
      (Finset.range g.height).filter fun y : ℕ => r.fromP.y ≤ y ∧ y < g.stopRow r := by
    ext y
    simp only [Finset.mem_filter, Finset.mem_range, Finset.mem_Ico]
    constructor <;> intro h <;> omega
  rw [dotsFrom_eq_sum, hrows, Finset.sum_filter, areaDots, Finset.card_filter, Finset.sum_product_right]
  refine Finset.sum_congr rfl fun y _ => ?_
  rw [lineDots_eq_card g hr, Finset.card_filter]
  split_ifs with h
  · exact Finset.sum_congr rfl fun x _ => if_congr (by simp [h]) rfl rfl
  · exact (Finset.sum_eq_zero fun x _ => if_neg fun hx => h ⟨hx.2.2.1, hx.2.2.2.1⟩).symm

end Grid

/-- The index returned is the least one among those whose area has the most dots. -/
theorem scan_least_maximal {g : Grid} {coordinate : Buf ℤ Point} (hshow : g.Shows coordinate)
    (arr : Buf ℕ Range) {n : ℕ} (hn : 1 ≤ n) (hin : ∀ k < n, g.Inside (arr.get k)) :
    let S := fun k => g.areaDots (arr.get k)
    let i := (scanToCountAreaWithMostDot arr n coordinate g.width g.height).markedAreaIndex
    i < n ∧ (∀ j < n, S j ≤ S i) ∧ ∀ j < n, (∀ k < n, S k ≤ S j) → i ≤ j := by
  intro S i
  have hmax := scan_isFirstMax hshow arr hn hin
  have hS : ∀ k < n, g.dotsFrom (arr.get k) (arr.get k).fromP.y.toNat = S k := fun k hk =>
    g.dotsFrom_eq_areaDots (hin k hk)
  refine ⟨hmax.lt, fun j hj => ?_, fun j hj hall => ?_⟩
  · rw [← hS j hj, ← hS i hmax.lt]
    rcases Nat.lt_trichotomy j i with hlt | rfl | hgt
    exacts [Nat.le_of_lt (hmax.before j hlt), Nat.le_refl _, hmax.after j hgt hj]
  · by_contra hlt
    have hbefore := hmax.before j (by omega)
    have hle := hall i hmax.lt
    rw [hS j hj, hS i hmax.lt] at hbefore
    omega

def fourColumns : Buf ℕ Range := Buf.malloc fun k => ⟨⟨4 * (k - 1 : ℕ), 0, BLANK⟩, ⟨4 * k, 0, BLANK⟩⟩

theorem scan_least_maximal_fiveDotsGrid :
    let i := (scanToCountAreaWithMostDot fourColumns 3 fiveDotsGrid.coordinate 10 1).markedAreaIndex
    i < 3 ∧ ∀ j < 3, fiveDotsGrid.areaDots (fourColumns.get j) ≤ fiveDotsGrid.areaDots (fourColumns.get i) := by
  have hin : ∀ k < 3, fiveDotsGrid.Inside (fourColumns.get k) := by
    intro k hk
    rw [fourColumns, Buf.get_malloc]
    refine ⟨?_, ?_, ?_, Int.le_refl 0⟩
    · show (0 : ℤ) ≤ 4 * (k - 1 : ℕ); omega
    · show (4 : ℤ) * (k - 1 : ℕ) ≤ 4 * k; omega
    · show (4 : ℤ) * k ≤ (10 : ℕ); omega
  have h := scan_least_maximal fiveDotsGrid.shows_coordinate fourColumns (by decide) hin
  exact ⟨h.1, h.2.1⟩

end CWorkspace.Pic
