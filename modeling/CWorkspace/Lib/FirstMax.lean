import Mathlib.Data.Nat.Notation
import Mathlib.Order.Lattice
import Mathlib.Tactic.SplitIfs

/-!
# The first maximum

`IsFirstMax score n k`: among the indices below `n`, `k` is the first one with the largest score. A scan
that replaces its candidate only by a strictly larger one keeps it (`IsFirstMax.step`).
-/

namespace CWorkspace

variable {α : Type*} [LinearOrder α]

structure IsFirstMax (score : ℕ → α) (n k : ℕ) : Prop where
  lt : k < n
  before : ∀ j < k, score j < score k
  after : ∀ j, k < j → j < n → score j ≤ score k

namespace IsFirstMax
variable {score : ℕ → α} {n k : ℕ}

theorem one (score : ℕ → α) : IsFirstMax score 1 0 :=
  ⟨Nat.one_pos, fun _ h => absurd h (Nat.not_lt_zero _), fun j h1 h2 => by omega⟩

theorem step (h : IsFirstMax score n k) :
    IsFirstMax score (n + 1) (if score k < score n then n else k) := by
  have hall : ∀ j < n, score j ≤ score k := fun j hj => by
    rcases Nat.lt_trichotomy j k with hlt | rfl | hgt
    exacts [le_of_lt (h.before j hlt), le_refl _, h.after j hgt hj]
  split_ifs with hlt
  · exact ⟨Nat.lt_succ_self n, fun j hj => lt_of_le_of_lt (hall j hj) hlt, fun j h1 h2 => by omega⟩
  · refine ⟨Nat.lt_succ_of_lt h.lt, h.before, fun j h1 h2 => ?_⟩
    rcases Nat.lt_succ_iff_lt_or_eq.1 h2 with hj | rfl
    exacts [hall j hj, le_of_not_gt hlt]

theorem congr {score' : ℕ → α} (h : IsFirstMax score n k) (heq : ∀ j < n, score j = score' j) :
    IsFirstMax score' n k := by
  have hk := heq k h.lt
  refine ⟨h.lt, fun j hj => ?_, fun j h1 h2 => ?_⟩
  · rw [← heq j (hj.trans h.lt), ← hk]
    exact h.before j hj
  · rw [← heq j h2, ← hk]
    exact h.after j h1 h2

theorem unique {k' : ℕ} (h : IsFirstMax score n k) (h' : IsFirstMax score n k') : k = k' := by
  rcases Nat.lt_trichotomy k k' with hlt | heq | hgt
  · exact absurd (h'.before k hlt) (not_lt_of_ge (h.after k' hlt h'.lt))
  · exact heq
  · exact absurd (h.before k' hgt) (not_lt_of_ge (h'.after k hgt h.lt))

end IsFirstMax

end CWorkspace
