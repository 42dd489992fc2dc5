import CWorkspace.Pic.Bars
import CWorkspace.Pic.Count

/-!
# The marked area

On a sheet with strokes in one gap between the bars the recognizer compares sums in which the printed bar
counts as much as the strokes, and each window reaches from the column left of its bar to two columns
before the next one. So the marked area wins exactly if its strokes outweigh the differences between the
bars (`marked_wins_iff`).
-/

namespace CWorkspace.Pic

/-- Five bars down to a bottom row that is all dots, with strokes only between bars `mark` and
`mark + 1`. -/
structure MarkedSheet (g : Grid) (bars : Bars) (y0 y1 mark : ℕ) : Prop where
  right : bars.b 4 < g.width
  bottom : y1 < g.height
  bar : ∀ y, y0 ≤ y → y < y1 → ∀ x < g.width, bars.On x → g.dot x y
  frame : ∀ x, bars.a 0 ≤ x → x ≤ bars.b 4 → g.dot x y1
  mark_lt : mark < 4
  marked : ∃ y, y0 ≤ y ∧ y < y1 ∧ ∃ x, bars.b mark < x ∧ x < bars.a (mark + 1) ∧ g.dot x y
  unmarked : ∀ k < 4, k ≠ mark → ∀ y, y0 ≤ y → y < y1 → ∀ x, bars.b k < x → x < bars.a (k + 1) → ¬ g.dot x y
  isOpen : ∀ k < 4, ∀ y, y0 ≤ y → y < y1 → g.Open (bars.area y0 k) y

section
variable (g : Grid) (bars : Bars) (y0 y1 : ℕ)

/-- Dots of the rows above the bottom row in columns `x, …, x + n - 1`. -/
def dotsIn (x n : ℕ) : ℕ :=
  ((List.range' y0 (y1 - y0)).map fun y => (List.range' x n).countP fun x => g.dot x y).sum

/-- The strokes area `k` counts as its own: all but those in the last column of the gap. -/
def strokes (k : ℕ) : ℕ := dotsIn g y0 y1 (bars.b k + 1) (bars.a (k + 1) - 1 - (bars.b k + 1))

/-- What area `k` counts whether it is marked or not: the bar, what is in the column left of it, and in
area 0, whose window begins outside the frame, the rows from the bottom row on that it still counts. -/
def printed (k : ℕ) : ℕ := (y1 - y0) * (bars.b k + 1 - bars.a k) + dotsIn g y0 y1 (bars.a k - 1) 1 +
  if k = 0 then g.dotsFrom (bars.area y0 0) y1 else 0

end

namespace Bars
variable (bars : Bars) {k : ℕ}

theorem area_left (hk : k < 5) (y : ℕ) : (bars.area y k).fromP.x.toNat = bars.a k - 1 := by
  have := bars.a_pos hk
  show ((bars.a k : ℤ) - 1).toNat = _
  omega

theorem area_width (y k : ℕ) :
    ((bars.area y k).toP.x - (bars.area y k).fromP.x).toNat = bars.a (k + 1) - bars.a k := by
  show ((bars.a (k + 1) : ℤ) - 1 - ((bars.a k : ℤ) - 1)).toNat = _
  omega

theorem inside_area {g : Grid} (hw : bars.b 4 < g.width) (hk : k < 4) (y : ℕ) : g.Inside (bars.area y k) := by
  have h1 := bars.a_pos (j := k) (by omega)
  have h2 := bars.wide k (by omega)
  have h3 := bars.gap k (by omega)
  have h4 := bars.wide (k + 1) (by omega)
  have h5 := bars.b_le (i := k + 1) (j := 4) (by omega) (by decide)
  refine ⟨?_, ?_, ?_, Int.natCast_nonneg y⟩
  · show 0 ≤ (bars.a k : ℤ) - 1
    omega
  · show (bars.a k : ℤ) - 1 ≤ bars.a (k + 1) - 1
    omega
  · show (bars.a (k + 1) : ℤ) - 1 ≤ g.width
    omega

/-- The window of an area: the column left of the bar, the bar, the gap but for its last column. -/
theorem lineDots_area {g : Grid} (hk : k < 4) (y0 y : ℕ) : g.lineDots (bars.area y0 k) y =
    (List.range' (bars.a k - 1) 1).countP (fun x => g.dot x y) +
      (List.range' (bars.a k) (bars.b k + 1 - bars.a k)).countP (fun x => g.dot x y) +
      (List.range' (bars.b k + 1) (bars.a (k + 1) - 1 - (bars.b k + 1))).countP fun x => g.dot x y := by
  have h1 := bars.a_pos (j := k) (by omega)
  have h2 := bars.wide k (by omega)
  have h3 := bars.gap k (by omega)
  have hsplit : List.range' (bars.a k - 1) (bars.a (k + 1) - bars.a k) =
      List.range' (bars.a k - 1) 1 ++ (List.range' (bars.a k) (bars.b k + 1 - bars.a k) ++
        List.range' (bars.b k + 1) (bars.a (k + 1) - 1 - (bars.b k + 1))) := by
    have h4 := List.range'_append_1 (s := bars.a k) (m := bars.b k + 1 - bars.a k)
      (n := bars.a (k + 1) - 1 - (bars.b k + 1))
    have h5 := List.range'_append_1 (s := bars.a k - 1) (m := 1) (n := bars.a (k + 1) - 1 - bars.a k)
    rw [show bars.a k + (bars.b k + 1 - bars.a k) = bars.b k + 1 by omega,
      show bars.b k + 1 - bars.a k + (bars.a (k + 1) - 1 - (bars.b k + 1)) =
        bars.a (k + 1) - 1 - bars.a k by omega] at h4
    rw [show bars.a k - 1 + 1 = bars.a k by omega,
      show 1 + (bars.a (k + 1) - 1 - bars.a k) = bars.a (k + 1) - bars.a k by omega] at h5
    rw [h4, h5]
  rw [Grid.lineDots, bars.area_left (by omega), bars.area_width y0 k, hsplit, List.countP_append,
    List.countP_append, Nat.add_assoc]

end Bars

namespace MarkedSheet
variable {g : Grid} {bars : Bars} {y0 y1 mark : ℕ} (h : MarkedSheet g bars y0 y1 mark)
include h

theorem sum_lineDots {k : ℕ} (hk : k < 4) :
    ((List.range' y0 (y1 - y0)).map (g.lineDots (bars.area y0 k))).sum =
      dotsIn g y0 y1 (bars.a k - 1) 1 + (y1 - y0) * (bars.b k + 1 - bars.a k) + strokes g bars y0 y1 k := by
  have hbar : ∀ y ∈ List.range' y0 (y1 - y0),
      (List.range' (bars.a k) (bars.b k + 1 - bars.a k)).countP (fun x => g.dot x y) =
        bars.b k + 1 - bars.a k := by
    intro y hy
    have hy := List.mem_range'_1.1 hy
    rw [List.countP_eq_length.2, List.length_range']
    intro x hx
    have hx := List.mem_range'_1.1 hx
    have := bars.b_le (i := k) (j := 4) (by omega) (by decide)
    have := h.right
    exact h.bar y hy.1 (by omega) x (by omega) ⟨k, by omega, hx.1, by omega⟩
  have hsum : ∀ (l : List ℕ) (f f' f'' : ℕ → ℕ), (l.map fun y => f y + f' y + f'' y).sum =
      (l.map f).sum + (l.map f').sum + (l.map f'').sum := by
    intro l f f' f''
    induction l with
    | nil => rfl
    | cons y l ih => simp only [List.map_cons, List.sum_cons, ih]; omega
  rw [List.map_congr_left fun y _ => bars.lineDots_area hk y0 y, hsum, List.map_congr_left hbar,
    List.map_const', List.sum_replicate_nat, List.length_range']
  rfl

theorem dotsFrom_bottom {k : ℕ} (hk : k < 4) (h0 : k ≠ 0) : g.dotsFrom (bars.area y0 k) y1 = 0 := by
  have h1 := bars.a_pos (j := k) (by omega)
  have h2 := bars.wide k (by omega)
  have h3 := bars.gap k (by omega)
  have h4 := bars.b_le (i := k + 1) (j := 4) (by omega) (by decide)
  have h5 := bars.wide (k + 1) (by omega)
  have h6 := bars.b_lt_a (i := 0) (j := k) (by omega) (by omega)
  have h7 := bars.wide 0 (by decide)
  have hfull : g.lineDots (bars.area y0 k) y1 = bars.a (k + 1) - bars.a k := by
    rw [Grid.lineDots, bars.area_left (by omega), bars.area_width y0 k, List.countP_eq_length.2,
      List.length_range']
    intro x hx
    have hx := List.mem_range'_1.1 hx
    exact h.frame x (by omega) (by omega)
  have hnot : ¬ g.Open (bars.area y0 k) y1 := by
    rw [Grid.Open, hfull, bars.area_width y0 k]
    omega
  have := h.bottom
  obtain ⟨n, hn⟩ : ∃ n, g.height - y1 = n + 1 := ⟨g.height - y1 - 1, by omega⟩
  rw [Grid.dotsFrom, hn, List.range'_succ, List.takeWhile_cons, if_neg (by simpa using hnot)]
  rfl

theorem dotsFrom_area {k : ℕ} (hk : k < 4) :
    g.dotsFrom (bars.area y0 k) y0 = printed g bars y0 y1 k + strokes g bars y0 y1 k := by
  obtain ⟨y, hy0, hy1, -⟩ := h.marked
  have hbottom := h.bottom
  have hrows := List.range'_append_1 (s := y0) (m := y1 - y0) (n := g.height - y1)
  rw [show y0 + (y1 - y0) = y1 by omega, show y1 - y0 + (g.height - y1) = g.height - y0 by omega] at hrows
  have hopen : ∀ y ∈ List.range' y0 (y1 - y0), decide (g.Open (bars.area y0 k) y) := fun y hy => by
    have hy := List.mem_range'_1.1 hy
    exact decide_eq_true (h.isOpen k hk y hy.1 (by omega))
  have hrest : (((List.range' y1 (g.height - y1)).takeWhile fun y => g.Open (bars.area y0 k) y).map
      (g.lineDots (bars.area y0 k))).sum = if k = 0 then g.dotsFrom (bars.area y0 0) y1 else 0 := by
    by_cases h0 : k = 0
    · rw [if_pos h0, h0]; rfl
    · rw [if_neg h0]; exact h.dotsFrom_bottom hk h0
  rw [Grid.dotsFrom, ← hrows, List.takeWhile_append_of_pos hopen, List.map_append, List.sum_append,
    h.sum_lineDots hk, hrest, printed]
  omega

theorem strokes_eq_zero {k : ℕ} (hk : k < 4) (hne : k ≠ mark) : strokes g bars y0 y1 k = 0 := by
  refine List.sum_eq_zero_iff_forall_eq_nat.2 fun n hn => ?_
  obtain ⟨y, hy, rfl⟩ := List.mem_map.1 hn
  have hy := List.mem_range'_1.1 hy
  refine List.countP_eq_zero.2 fun x hx => ?_
  have hx := List.mem_range'_1.1 hx
  exact h.unmarked k hk hne y hy.1 (by omega) x (by omega) (by omega)

end MarkedSheet

/-- The marked area is returned exactly if no area before it counts as many printed dots as it counts
dots in all, and no area after it more. -/
theorem marked_wins_iff {g : Grid} {coordinate : Buf ℤ Point} (hshow : g.Shows coordinate) {bars : Bars}
    {y0 y1 mark : ℕ} (h : MarkedSheet g bars y0 y1 mark) {arr : Buf ℕ Range}
    (harr : ∀ k < 4, arr.get k = bars.area y0 k) :
    (scanToCountAreaWithMostDot arr 4 coordinate g.width g.height).markedAreaIndex = mark ↔
      (∀ k < mark, printed g bars y0 y1 k < printed g bars y0 y1 mark + strokes g bars y0 y1 mark) ∧
        ∀ k, mark < k → k < 4 →
          printed g bars y0 y1 k ≤ printed g bars y0 y1 mark + strokes g bars y0 y1 mark := by
  have hmark := h.mark_lt
  have hmax := scan_isFirstMax hshow arr (n := 4) (by decide)
    fun k hk => (harr k hk).symm ▸ bars.inside_area h.right hk y0
  set score := fun k => g.dotsFrom (arr.get k) (arr.get k).fromP.y.toNat
  have hscore : ∀ k < 4, score k = printed g bars y0 y1 k + strokes g bars y0 y1 k := by
    intro k hk
    show g.dotsFrom (arr.get k) (arr.get k).fromP.y.toNat = _
    rw [harr k hk]
    exact h.dotsFrom_area hk
  have hother : ∀ k < 4, k ≠ mark → score k = printed g bars y0 y1 k := by
    intro k hk hne
    rw [hscore k hk, h.strokes_eq_zero hk hne, Nat.add_zero]
  rw [← hscore mark hmark]
  constructor
  · rintro rfl
    refine ⟨fun k hk => ?_, fun k hk hk4 => ?_⟩
    · rw [← hother k (by omega) (by omega)]; exact hmax.before k hk
    · rw [← hother k hk4 (by omega)]; exact hmax.after k hk hk4
  · rintro ⟨hbefore, hafter⟩
    refine hmax.unique ⟨hmark, fun k hk => ?_, fun k hk hk4 => ?_⟩
    · rw [hother k (by omega) (by omega)]; exact hbefore k hk
    · rw [hother k hk4 (by omega)]; exact hafter k hk hk4

def evenBars : Bars where
  a k := 10 * k + 1
  b k := 10 * k + 3
  left _ := by omega
  ordered _ _ := by omega
  gap _ _ := by omega
  wide _ _ := Nat.le_refl _

def unevenBars : Bars where
  a k := 10 * k + 1
  b k := if k = 0 then 8 else 10 * k + 3
  left _ := by omega
  ordered _ _ := by split_ifs <;> omega
  gap _ _ := by split_ifs <;> omega
  wide _ _ := by split_ifs <;> omega

/-- One row of bars with a dot in the third gap, above a bottom row. -/
def strokeSheet (bars : Bars) : Grid := ⟨45, 2, by decide, fun x y => bars.On x ∨ x = 25 ∨ y = 1⟩

theorem markedSheet_strokeSheet {bars : Bars} (hright : bars.b 4 < 45) (hleft : bars.b 2 < 25)
    (hgap : 25 < bars.a 3) (hopen : ∀ k < 4, (strokeSheet bars).Open (bars.area 0 k) 0) :
    MarkedSheet (strokeSheet bars) bars 0 1 2 where
  right := hright
  bottom := Nat.one_lt_two
  bar _ _ _ _ _ hx := decide_eq_true (.inl hx)
  frame _ _ _ := decide_eq_true (.inr (.inr rfl))
  mark_lt := by decide
  marked := ⟨0, by decide, by decide, 25, hleft, hgap, decide_eq_true (.inr (.inl rfl))⟩
  unmarked k hk hne y _ hy x h1 h2 := by
    refine fun hdot => ?_
    rcases of_decide_eq_true hdot with hon | rfl | rfl
    · exact bars.not_on_gap (by omega) h1 h2 hon
    · -- the dot is right of the first two gaps and left of the last
      rcases Nat.lt_or_ge k 2 with hlt | hge
      · have := bars.ordered (k + 1) (by omega)
        have := bars.b_le (i := k + 1) (j := 2) (by omega) (by decide)
        omega
      · obtain rfl : k = 3 := by omega
        have := bars.ordered 3 (by decide)
        omega
    · omega
  isOpen k hk y _ hy := by
    obtain rfl : y = 0 := by omega
    exact hopen k hk

theorem marked_wins_iff_evenBars : (scanToCountAreaWithMostDot (Buf.malloc (evenBars.area 0)) 4
    (strokeSheet evenBars).coordinate 45 2).markedAreaIndex = 2 := by
  have hafter : ∀ k < 4, 2 < k → printed (strokeSheet evenBars) evenBars 0 1 k ≤
    printed (strokeSheet evenBars) evenBars 0 1 2 + strokes (strokeSheet evenBars) evenBars 0 1 2 := by decide
  exact (marked_wins_iff (strokeSheet evenBars).shows_coordinate
    (markedSheet_strokeSheet (by decide) (by decide) (by decide) (by decide)) fun _ _ => rfl).2
    ⟨by decide, fun k h2 h4 => hafter k h4 h2⟩

theorem unevenSheet_misread : MarkedSheet (strokeSheet unevenBars) unevenBars 0 1 2 ∧
    (scanToCountAreaWithMostDot (Buf.malloc (unevenBars.area 0)) 4
      (strokeSheet unevenBars).coordinate 45 2).markedAreaIndex = 0 :=
  ⟨markedSheet_strokeSheet (by decide) (by decide) (by decide) (by decide), by decide⟩

end CWorkspace.Pic
