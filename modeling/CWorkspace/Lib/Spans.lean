import Mathlib.Data.List.Sort

/-!
# Separate intervals of positions

`Spans k` are `k` intervals from left to right, none of which touches another or the position zero. Every
predicate on the positions below a bound that does not hold at zero is given by some (`exists_spans`). `edges` are
the positions before which or at which it changes (`edges_eq`).
-/

namespace CWorkspace

/-- Interval `j` goes from `a j` to `b j`. -/
structure Spans (k : ℕ) where
  a : ℕ → ℕ
  b : ℕ → ℕ
  left : 0 < k → 1 ≤ a 0
  ordered : ∀ j < k, a j ≤ b j
  gap : ∀ j, j + 1 < k → b j + 1 < a (j + 1)

namespace Spans
variable {k : ℕ} (s : Spans k)

def On (x : ℕ) : Prop := ∃ j < k, s.a j ≤ x ∧ x ≤ s.b j

instance : DecidablePred s.On := fun x => inferInstanceAs (Decidable (∃ j < k, s.a j ≤ x ∧ x ≤ s.b j))

theorem b_lt_a {i j : ℕ} (hij : i < j) (hj : j < k) : s.b i + 1 < s.a j := by
  induction j, hij using Nat.le_induction with
  | base => exact s.gap i hj
  | succ j _ ih =>
    have h1 := ih (by omega)
    have h2 := s.ordered j (by omega)
    have h3 := s.gap j hj
    omega

theorem a_pos {j : ℕ} (hj : j < k) : 1 ≤ s.a j := by
  rcases Nat.eq_zero_or_pos j with rfl | hpos
  · exact s.left hj
  · have := s.b_lt_a hpos hj
    omega

theorem b_le {i j : ℕ} (hij : i ≤ j) (hj : j < k) : s.b i ≤ s.b j := by
  rcases Nat.eq_or_lt_of_le hij with rfl | h
  · exact Nat.le_refl _
  · have := s.b_lt_a h hj
    have := s.ordered j hj
    omega

theorem on_a {j : ℕ} (hj : j < k) : s.On (s.a j) := ⟨j, hj, Nat.le_refl _, s.ordered j hj⟩

theorem on_b {j : ℕ} (hj : j < k) : s.On (s.b j) := ⟨j, hj, s.ordered j hj, Nat.le_refl _⟩

theorem on_before {j : ℕ} (hj : j < k) : ¬ s.On (s.a j - 1) := by
  rintro ⟨i, hi, h1, h2⟩
  have hpos := s.a_pos hj
  rcases Nat.lt_trichotomy i j with h | rfl | h
  · have := s.b_lt_a h hj; omega
  · omega
  · have := s.b_lt_a h hi
    have := s.ordered j hj
    omega

theorem on_after {j : ℕ} (hj : j < k) : ¬ s.On (s.b j + 1) := by
  rintro ⟨i, hi, h1, h2⟩
  rcases Nat.lt_trichotomy i j with h | rfl | h
  · have := s.b_lt_a h hj
    have := s.ordered j hj
    omega
  · omega
  · have := s.b_lt_a h hi; omega

theorem not_on_gap {j x : ℕ} (hj : j + 1 < k) (h1 : s.b j < x) (h2 : x < s.a (j + 1)) : ¬ s.On x := by
  rintro ⟨i, hi, hi1, hi2⟩
  rcases Nat.lt_or_ge j i with hlt | hge
  · rcases Nat.eq_or_lt_of_le (show j + 1 ≤ i from hlt) with rfl | hlt
    · omega
    · have := s.b_lt_a hlt hi
      have := s.ordered (j + 1) hj
      omega
  · have := s.b_le hge (Nat.lt_of_succ_lt hj)
    omega

theorem on_ne_iff (x : ℕ) : ¬ (s.On x ↔ s.On (x + 1)) ↔ ∃ j < k, x = s.a j - 1 ∨ x = s.b j := by
  constructor
  · intro h
    by_cases hx : s.On x
    · have hx' : ¬ s.On (x + 1) := fun h' => h (iff_of_true hx h')
      obtain ⟨j, hj, h1, h2⟩ := hx
      refine ⟨j, hj, .inr (Nat.le_antisymm h2 (Nat.le_of_not_lt fun hlt => hx' ⟨j, hj, by omega, hlt⟩))⟩
    · have hx' : s.On (x + 1) := by_contra fun h' => h (iff_of_false hx h')
      obtain ⟨j, hj, h1, h2⟩ := hx'
      have hlt : x < s.a j := Nat.lt_of_not_le fun hle => hx ⟨j, hj, hle, by omega⟩
      exact ⟨j, hj, .inl (by omega)⟩
  · rintro ⟨j, hj, rfl | rfl⟩ hiff
    · refine s.on_before hj (hiff.2 ?_)
      rw [Nat.sub_add_cancel (s.a_pos hj)]
      exact s.on_a hj
    · exact s.on_after hj (hiff.1 (s.on_b hj))

/-- Before and at the end of each interval, and the last position if it is in none. -/
def edges (n : ℕ) : List ℕ :=
  (List.range k).flatMap (fun j => [s.a j - 1, s.b j]) ++ if s.On (n - 1) then [] else [n - 1]

theorem edges_eq {n : ℕ} (hn : 0 < n) (hb : ∀ j < k, s.b j < n) : s.edges n =
    (List.range n).filter fun x => x + 1 = n ∨ ¬ (s.On x ↔ s.On (x + 1)) := by
  refine List.Pairwise.eq_of_mem_iff (r := (· < ·)) ?_ (List.pairwise_lt_range.filter _) fun x => ?_
  · rw [edges, List.pairwise_append, List.pairwise_flatMap]
    refine ⟨⟨fun j hj => ?_, List.pairwise_lt_range.imp_of_mem ?_⟩, ?_, fun x hx y hy => ?_⟩
    · have hj := List.mem_range.1 hj
      have := s.a_pos hj
      have := s.ordered j hj
      rw [List.pairwise_pair]
      omega
    · intro i j hi hj hij x hx y hy
      have hi := List.mem_range.1 hi
      have hj := List.mem_range.1 hj
      have := s.b_lt_a hij hj
      have := s.ordered i hi
      have := s.ordered j hj
      simp only [List.mem_cons, List.not_mem_nil, or_false] at hx hy
      omega
    · split_ifs <;> simp
    · split_ifs at hy with hon
      · exact absurd hy List.not_mem_nil
      · obtain ⟨j, hj, hx⟩ := List.mem_flatMap.1 hx
        have hj := List.mem_range.1 hj
        have := hb j hj
        have := s.ordered j hj
        have hne : s.b j ≠ n - 1 := fun h => hon (h ▸ s.on_b hj)
        simp only [List.mem_cons, List.not_mem_nil, or_false] at hx hy
        omega
  · simp only [edges, List.mem_append, List.mem_flatMap, List.mem_range, List.mem_cons, List.not_mem_nil,
      or_false, List.mem_filter, decide_eq_true_eq, on_ne_iff]
    constructor
    · rintro (⟨j, hj, h⟩ | h)
      · have := hb j hj
        have := s.ordered j hj
        exact ⟨by omega, .inr ⟨j, hj, h⟩⟩
      · split_ifs at h
        · exact absurd h List.not_mem_nil
        · have := List.mem_singleton.1 h
          exact ⟨by omega, .inl (by omega)⟩
    · rintro ⟨hx, h | h⟩
      · by_cases hon : s.On (n - 1)
        · obtain ⟨j, hj, h1, h2⟩ := hon
          have := hb j hj
          exact .inl ⟨j, hj, .inr (by omega)⟩
        · rw [if_neg hon]
          exact .inr (List.mem_singleton.2 (by omega))
      · exact .inl h

/-! ### Every predicate has its intervals -/

theorem exists_grow {n : ℕ} (hb : ∀ j < k, s.b j < n) (hlast : s.On (n - 1)) : ∃ s' : Spans k,
    (∀ j < k, s'.b j < n + 1) ∧ ∀ x, s'.On x ↔ s.On x ∨ x = n := by
  obtain ⟨i, hi, h1, h2⟩ := hlast
  have hbi := hb i hi
  have hmax : i + 1 = k := by
    by_contra hne
    have hgap := s.gap i (by omega)
    have := hb (i + 1) (by omega)
    have := s.ordered (i + 1) (by omega)
    omega
  refine ⟨⟨s.a, fun j => if j = i then n else s.b j, s.left, fun j hj => ?_, fun j hj => ?_⟩, fun j hj => ?_,
    fun x => ⟨?_, ?_⟩⟩
  · have := s.ordered j hj
    split_ifs with hji
    · subst hji; omega
    · exact this
  · rw [if_neg (by omega)]
    exact s.gap j hj
  · have := hb j hj
    dsimp only
    split_ifs <;> omega
  · rintro ⟨j, hj, hx1, hx2⟩
    dsimp only at hx1 hx2
    split_ifs at hx2 with hji
    · subst hji
      rcases Nat.lt_or_ge x n with hlt | hge
      · exact .inl ⟨j, hj, hx1, by omega⟩
      · exact .inr (by omega)
    · exact .inl ⟨j, hj, hx1, hx2⟩
  · rintro (⟨j, hj, hx1, hx2⟩ | rfl)
    · refine ⟨j, hj, hx1, ?_⟩
      dsimp only
      split_ifs with hji
      · subst hji; omega
      · exact hx2
    · refine ⟨i, hi, by dsimp only; omega, ?_⟩
      dsimp only
      rw [if_pos rfl]

theorem exists_append {n : ℕ} (hn : 1 ≤ n) (hb : ∀ j < k, s.b j < n) (hlast : ¬ s.On (n - 1)) :
    ∃ s' : Spans (k + 1), (∀ j < k + 1, s'.b j < n + 1) ∧ ∀ x, s'.On x ↔ s.On x ∨ x = n := by
  refine ⟨⟨fun j => if j = k then n else s.a j, fun j => if j = k then n else s.b j, fun _ => ?_, fun j hj => ?_,
    fun j hj => ?_⟩, fun j hj => ?_, fun x => ⟨?_, ?_⟩⟩
  · split_ifs
    · exact hn
    · exact s.left (by omega)
  · split_ifs
    · exact Nat.le_refl _
    · exact s.ordered j (by omega)
  · have hbj := hb j (by omega)
    have hne : s.b j ≠ n - 1 := fun h => hlast (h ▸ s.on_b (by omega))
    rw [if_neg (by omega)]
    split_ifs
    · omega
    · exact s.gap j (by omega)
  · dsimp only
    split_ifs
    · omega
    · exact Nat.lt_succ_of_lt (hb j (by omega))
  · rintro ⟨j, hj, hx1, hx2⟩
    dsimp only at hx1 hx2
    split_ifs at hx1 hx2
    · exact .inr (by omega)
    · exact .inl ⟨j, by omega, hx1, hx2⟩
  · rintro (⟨j, hj, hx1, hx2⟩ | rfl)
    · refine ⟨j, by omega, ?_, ?_⟩ <;> dsimp only <;> rwa [if_neg (by omega)]
    · exact ⟨k, by omega, by dsimp only; rw [if_pos rfl], by dsimp only; rw [if_pos rfl]⟩

theorem exists_spans (p : ℕ → Prop) (h0 : ¬ p 0) (n : ℕ) :
    ∃ (k : ℕ) (s : Spans k), (∀ j < k, s.b j < n) ∧ ∀ x < n, p x ↔ s.On x := by
  classical
  induction n with
  | zero => exact ⟨0, ⟨id, id, fun h => absurd h (by omega), fun _ h => absurd h (by omega),
      fun _ h => absurd h (by omega)⟩, fun _ h => absurd h (by omega), fun _ h => absurd h (by omega)⟩
  | succ n ih =>
    obtain ⟨k, s, hb, hp⟩ := ih
    have hnot : ¬ s.On n := fun ⟨j, hj, _, h2⟩ => by have := hb j hj; omega
    by_cases hpn : p n
    · have hn : 1 ≤ n := Nat.one_le_iff_ne_zero.2 fun h => h0 (h ▸ hpn)
      have hall : ∀ {k' : ℕ} {s' : Spans k'}, (∀ x, s'.On x ↔ s.On x ∨ x = n) → ∀ x < n + 1, p x ↔ s'.On x := by
        intro k' s' h x hx
        rw [h]
        rcases Nat.lt_succ_iff_lt_or_eq.1 hx with hlt | rfl
        · rw [hp x hlt]
          exact ⟨.inl, fun h => h.resolve_right (by omega)⟩
        · exact iff_of_true hpn (.inr rfl)
      by_cases hlast : s.On (n - 1)
      · obtain ⟨s', hb', h⟩ := s.exists_grow hb hlast
        exact ⟨k, s', hb', hall h⟩
      · obtain ⟨s', hb', h⟩ := s.exists_append hn hb hlast
        exact ⟨k + 1, s', hb', hall h⟩
    · refine ⟨k, s, fun j hj => Nat.lt_succ_of_lt (hb j hj), fun x hx => ?_⟩
      rcases Nat.lt_succ_iff_lt_or_eq.1 hx with hlt | rfl
      · exact hp x hlt
      · exact iff_of_false hpn hnot

end Spans

end CWorkspace
