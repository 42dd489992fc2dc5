import Mathlib.Algebra.Group.Nat.Defs
import Mathlib.Data.Nat.Init
import Mathlib.Logic.Equiv.Basic
import Mathlib.Order.Defs.Unbundled
import Mathlib.Tactic.Common

/-!
# Heap order

Keys `k 1, …, k (n - 1)` stand in the cells of a binary tree, the parent of cell `j` being `j / 2`. They are
`Ordered` if every key may stand under its parent's (`r a b`: `b` may stand under `a`). One key that changed is
mended along a path: upwards while the only edge in doubt is the one over cell `i` (`UpOrdered`), downwards
while only edges under cell `i` are (`DownOrdered`). Either step swaps two keys and moves the doubt along.
-/

namespace CWorkspace.Heap
variable {P : Type*} {r : P → P → Prop} {n i : ℕ} {k : ℕ → P}

def Ordered (r : P → P → Prop) (n : ℕ) (k : ℕ → P) : Prop :=
  ∀ j, 2 ≤ j → j < n → r (k (j / 2)) (k j)

/-- Ordered but for the edge over cell `i`. -/
structure UpOrdered (r : P → P → Prop) (n : ℕ) (k : ℕ → P) (i : ℕ) : Prop where
  edge : ∀ j, 2 ≤ j → j < n → j ≠ i → r (k (j / 2)) (k j)
  bridge : 2 ≤ i → ∀ j, j / 2 = i → j < n → r (k (i / 2)) (k j)

/-- Ordered but for the edges under cell `i`. -/
structure DownOrdered (r : P → P → Prop) (n : ℕ) (k : ℕ → P) (i : ℕ) : Prop where
  edge : ∀ j, 2 ≤ j → j < n → j / 2 ≠ i → r (k (j / 2)) (k j)
  bridge : 2 ≤ i → ∀ j, j / 2 = i → j < n → r (k (i / 2)) (k j)

theorem UpOrdered.ordered (h : UpOrdered r n k i) (hi : 2 ≤ i → i < n → r (k (i / 2)) (k i)) : Ordered r n k := by
  intro j hj hjn
  by_cases hji : j = i
  · subst hji
    exact hi hj hjn
  · exact h.edge j hj hjn hji

theorem DownOrdered.ordered (h : DownOrdered r n k i) (hi : ∀ j, 2 ≤ j → j / 2 = i → j < n → r (k i) (k j)) :
    Ordered r n k := by
  intro j hj hjn
  by_cases hji : j / 2 = i
  · rw [hji]
    exact hi j hj hji hjn
  · exact h.edge j hj hjn hji

/-! ### One step -/

/-- `c` is a child of `i` no other child of `i` has to stand over. -/
theorem DownOrdered.step (h : DownOrdered r n k i) (hi : 1 ≤ i) {c : ℕ} (hc : c / 2 = i) (hcn : c < n)
    (hmax : ∀ j, j / 2 = i → j < n → r (k c) (k j)) (hover : r (k c) (k i)) :
    DownOrdered r n (k ∘ Equiv.swap i c) c := by
  have hat : (k ∘ Equiv.swap i c) i = k c := by simp
  have hdown : (k ∘ Equiv.swap i c) c = k i := by simp
  have hrest : ∀ j, j ≠ i → j ≠ c → (k ∘ Equiv.swap i c) j = k j := fun j h₁ h₂ => by
    rw [Function.comp_apply, Equiv.swap_apply_of_ne_of_ne h₁ h₂]
  refine ⟨fun j hj hjn hjc => ?_, fun _ j hjc hjn => ?_⟩
  · by_cases hj₁ : j = c
    · subst hj₁
      rw [hc, hat, hdown]
      exact hover
    by_cases hj₂ : j / 2 = i
    · rw [hj₂, hat, hrest j (by omega) hj₁]
      exact hmax j hj₂ hjn
    rw [hrest _ hj₂ hjc]
    by_cases hji : j = i
    · subst hji
      rw [hat]
      exact h.bridge hj c hc hcn
    · rw [hrest j hji hj₁]
      exact h.edge j hj hjn hj₂
  · have hedge := h.edge j (by omega) hjn (by omega)
    rw [hjc] at hedge
    rw [hc, hat, hrest j (by omega) (by omega)]
    exact hedge

section
variable [IsTrans P r]

/-- Under a key that may stand over cell `i`'s stands whatever may stand under cell `i`. -/
theorem Ordered.bridge (h : Ordered r n k) (hi : 2 ≤ i) (j : ℕ) (hj : j / 2 = i) (hjn : j < n) :
    r (k (i / 2)) (k j) := by
  have hunder := h j (by omega) hjn
  rw [hj] at hunder
  exact trans_of r (h i hi (by omega)) hunder

theorem UpOrdered.step (h : UpOrdered r n k i) (hi : 2 ≤ i) (hin : i < n) (hover : r (k i) (k (i / 2))) :
    UpOrdered r n (k ∘ Equiv.swap i (i / 2)) (i / 2) := by
  have hat : (k ∘ Equiv.swap i (i / 2)) i = k (i / 2) := by simp
  have hup : (k ∘ Equiv.swap i (i / 2)) (i / 2) = k i := by simp
  have hrest : ∀ j, j ≠ i → j ≠ i / 2 → (k ∘ Equiv.swap i (i / 2)) j = k j := fun j h₁ h₂ => by
    rw [Function.comp_apply, Equiv.swap_apply_of_ne_of_ne h₁ h₂]
  refine ⟨fun j hj hjn hjp => ?_, fun hp j hjp hjn => ?_⟩
  · by_cases hji : j = i
    · subst hji
      rw [hat, hup]
      exact hover
    rw [hrest j hji hjp]
    by_cases hj₁ : j / 2 = i
    · rw [hj₁, hat]
      exact h.bridge hi j hj₁ hjn
    by_cases hj₂ : j / 2 = i / 2
    · have hedge := h.edge j hj hjn hji
      rw [hj₂] at hedge ⊢
      rw [hup]
      exact trans_of r hover hedge
    · rw [hrest _ hj₁ hj₂]
      exact h.edge j hj hjn hji
  · have hover' := h.edge (i / 2) hp (by omega) (by omega)
    rw [hrest _ (by omega) (by omega)]
    by_cases hji : j = i
    · subst hji
      rw [hat]
      exact hover'
    · have hedge := h.edge j (by omega) hjn hji
      rw [hjp] at hedge
      rw [hrest j hji (by omega)]
      exact trans_of r hover' hedge

theorem Ordered.upOrdered (h : Ordered r n k) {x : P} (hx : r x (k i)) :
    UpOrdered r n (Function.update k i x) i := by
  refine ⟨fun j hj hjn hji => ?_, fun hi j hji hjn => ?_⟩
  · rw [Function.update_of_ne hji]
    by_cases hj₂ : j / 2 = i
    · have hedge := h j hj hjn
      rw [hj₂] at hedge ⊢
      rw [Function.update_self]
      exact trans_of r hx hedge
    · rw [Function.update_of_ne hj₂]
      exact h j hj hjn
  · rw [Function.update_of_ne (by omega), Function.update_of_ne (by omega)]
    exact h.bridge hi j hji hjn

theorem Ordered.downOrdered (h : Ordered r n k) {x : P} (hx : r (k i) x) :
    DownOrdered r n (Function.update k i x) i := by
  refine ⟨fun j hj hjn hji => ?_, fun hi j hji hjn => ?_⟩
  · rw [Function.update_of_ne hji]
    by_cases hj₂ : j = i
    · subst hj₂
      rw [Function.update_self]
      exact trans_of r (h j hj hjn) hx
    · rw [Function.update_of_ne hj₂]
      exact h j hj hjn
  · rw [Function.update_of_ne (by omega), Function.update_of_ne (by omega)]
    exact h.bridge hi j hji hjn

theorem Ordered.root [Std.Refl r] (h : Ordered r n k) {j : ℕ} (hj : 1 ≤ j) (hjn : j < n) : r (k 1) (k j) := by
  induction j using Nat.strong_induction_on with
  | _ j ih =>
    by_cases hj₁ : j = 1
    · subst hj₁
      exact refl_of r _
    · exact trans_of r (ih (j / 2) (by omega) (by omega) (by omega)) (h j (by omega) hjn)

end

theorem Ordered.mono (h : Ordered r n k) {m : ℕ} (hmn : m ≤ n) : Ordered r m k :=
  fun j hj hjm => h j hj (by omega)

theorem Ordered.downOrdered_root (h : Ordered r n k) (x : P) : DownOrdered r n (Function.update k 1 x) 1 := by
  refine ⟨fun j hj hjn hji => ?_, fun hi => absurd hi (by omega)⟩
  rw [Function.update_of_ne hji, Function.update_of_ne (by omega)]
  exact h j hj hjn

theorem Ordered.upOrdered_snoc (h : Ordered r n k) (x : P) :
    UpOrdered r (n + 1) (Function.update k n x) n := by
  refine ⟨fun j hj hjn hji => ?_, fun hi j hji hjn => by omega⟩
  rw [Function.update_of_ne hji, Function.update_of_ne (by omega)]
  exact h j hj (by omega)

theorem UpOrdered.congr {k' : ℕ → P} (h : UpOrdered r n k i) (hk : ∀ j, 1 ≤ j → j < n → k' j = k j) :
    UpOrdered r n k' i := by
  refine ⟨fun j hj hjn hji => ?_, fun hi j hji hjn => ?_⟩
  · rw [hk j (by omega) hjn, hk (j / 2) (by omega) (by omega)]
    exact h.edge j hj hjn hji
  · rw [hk j (by omega) hjn, hk (i / 2) (by omega) (by omega)]
    exact h.bridge hi j hji hjn

theorem DownOrdered.congr {k' : ℕ → P} (h : DownOrdered r n k i) (hk : ∀ j, 1 ≤ j → j < n → k' j = k j) :
    DownOrdered r n k' i := by
  refine ⟨fun j hj hjn hji => ?_, fun hi j hji hjn => ?_⟩
  · rw [hk j (by omega) hjn, hk (j / 2) (by omega) (by omega)]
    exact h.edge j hj hjn hji
  · rw [hk j (by omega) hjn, hk (i / 2) (by omega) (by omega)]
    exact h.bridge hi j hji hjn

def Below (i j : ℕ) : Prop := ∃ m, j / 2 ^ (m + 1) = i

theorem below_iff {j : ℕ} : Below i j ↔ (j / 2 = i) ∨ Below (2 * i) j ∨ Below (2 * i + 1) j := by
  constructor
  · rintro ⟨m, hm⟩
    rcases m with _ | m
    · exact .inl (by simpa using hm)
    · rw [pow_succ, ← Nat.div_div_eq_div_mul] at hm
      rcases (by omega : j / 2 ^ (m + 1) = 2 * i ∨ j / 2 ^ (m + 1) = 2 * i + 1) with h | h
      · exact .inr (.inl ⟨m, h⟩)
      · exact .inr (.inr ⟨m, h⟩)
  · rintro (h | ⟨m, hm⟩ | ⟨m, hm⟩)
    · exact ⟨0, by simpa using h⟩
    · refine ⟨m + 1, ?_⟩
      rw [pow_succ, ← Nat.div_div_eq_div_mul, hm]
      omega
    · refine ⟨m + 1, ?_⟩
      rw [pow_succ, ← Nat.div_div_eq_div_mul, hm]
      omega

theorem Below.two_mul_le {j : ℕ} (h : Below i j) : 2 * i ≤ j := by
  obtain ⟨m, rfl⟩ := h
  rw [pow_succ, ← Nat.div_div_eq_div_mul]
  have := Nat.div_le_self j (2 ^ m)
  omega

theorem below_one {j : ℕ} (hj : 2 ≤ j) : Below 1 j := by
  induction j using Nat.strong_induction_on with
  | _ j ih =>
    by_cases hroot : j / 2 = 1
    · exact below_iff.2 (.inl hroot)
    · obtain ⟨m, hm⟩ := ih (j / 2) (by omega) (by omega)
      refine ⟨m + 1, ?_⟩
      rw [pow_succ', ← Nat.div_div_eq_div_mul]
      exact hm

end CWorkspace.Heap
