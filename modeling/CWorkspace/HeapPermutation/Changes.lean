import CWorkspace.HeapPermutation
import Mathlib.Data.List.Chain

/-!
# From one call of `cb` to the next, and what is left behind

The recursion swaps after its last call as well. That swap is why the array comes back unchanged or rotated by
one position (`heapPermute_leaves`), and why from four elements on two arrays shown one after the other can
differ in more than a pair of positions (`minimal_change_iff`).
-/

namespace CWorkspace.HeapPermutation
open Equiv

variable {α : Type*}

/-- Unchanged for odd `n`; for even `n` rotated right by one position. No cell behind the array is touched. -/
theorem heapPermute_leaves (n : ℕ) (s : HeapState α) :
    (n % 2 = 1 → ∀ i < n, (heapPermute n s).v i = s.v i) ∧
    (n % 2 = 0 → (0 < n → (heapPermute n s).v 0 = s.v (n - 1)) ∧
      ∀ i, 0 < i → i < n → (heapPermute n s).v i = s.v (i - 1)) ∧
    ∀ i, n ≤ i → (heapPermute n s).v i = s.v i := by
  have hv : ∀ i, (heapPermute n s).v i = s.v (net n i) := fun i => by rw [heapPermute_eq]; rfl
  simp only [hv]
  refine ⟨fun hodd i _ => ?_, fun heven => ⟨fun hn => ?_, fun i hpos hi => ?_⟩, fun i hi => ?_⟩
  · rw [net, if_pos hodd, Perm.one_apply]
  · rw [net, if_neg (by omega), rot_apply, if_pos hn, if_pos rfl]
  · rw [net, if_neg (by omega), rot_apply, if_pos hi, if_neg (by omega)]
  · unfold net
    split_ifs
    · rw [Perm.one_apply]
    · rw [rot_apply, if_neg (Nat.not_lt.2 hi)]

/-- `l'` is `l` with exactly one pair of positions exchanged. -/
def ExchangesPair (l l' : List α) : Prop :=
  ∃ i j : Fin l.length, i < j ∧ l' = (l.set i (l.get j)).set j (l.get i)

theorem ExchangesPair.elsewhere {l l' : List α} (h : ExchangesPair l l') :
    ∃ i j : ℕ, ∀ k : ℕ, k ≠ i → k ≠ j → l'[k]? = l[k]? := by
  obtain ⟨i, j, -, rfl⟩ := h
  exact ⟨i, j, fun k hi hj => by rw [List.getElem?_set_ne (Ne.symm hj), List.getElem?_set_ne (Ne.symm hi)]⟩

theorem not_exchangesPair {l l' : List α} {a b c : ℕ} (hab : a ≠ b) (hbc : b ≠ c) (hac : a ≠ c)
    (ha : l'[a]? ≠ l[a]?) (hb : l'[b]? ≠ l[b]?) (hc : l'[c]? ≠ l[c]?) : ¬ ExchangesPair l l' := by
  intro h
  obtain ⟨i, j, helse⟩ := h.elsewhere
  have hpair : ∀ k, l'[k]? ≠ l[k]? → k = i ∨ k = j := fun k hk => by
    by_contra hne
    exact hk (helse k (fun h => hne (.inl h)) fun h => hne (.inr h))
  rcases hpair a ha with rfl | rfl <;> rcases hpair b hb with rfl | rfl <;> rcases hpair c hc with rfl | rfl <;>
    contradiction

/-! ### From call to call -/

theorem perms_append (m : ℕ) (k : ℕ) : ∃ r, perms (m + 1 + k) = perms (m + 1) ++ r := by
  induction k with
  | zero => exact ⟨[], (List.append_nil _).symm⟩
  | succ k ih =>
    obtain ⟨r, hr⟩ := ih
    refine ⟨r ++ (List.range' 1 (m + k + 1)).flatMap fun i => (perms (m + k + 1)).map (pre (m + k + 1) i * ·), ?_⟩
    have hfirst : (perms (m + k + 1)).map (pre (m + k + 1) 0 * ·) = perms (m + k + 1) := by simp [pre]
    rw [← List.append_assoc, ← hr, show m + 1 + (k + 1) = m + k + 2 by omega, perms, List.range_eq_range',
      List.range'_succ, List.flatMap_cons, hfirst, show m + 1 + k = m + k + 1 by omega]

theorem contents_getElem? (n : ℕ) (v : ℕ → α) {k : ℕ} (hk : k < n) : (contents n v)[k]? = some (v k) := by
  rw [contents, List.getElem?_ofFn, dif_pos hk]

theorem calls_eq (n : ℕ) (v : ℕ → α) : calls n v = (perms n).map fun p : Perm ℕ => contents n (v ∘ p) := by
  rw [calls, heapPermute_eq, List.nil_append, List.map_map]; rfl

theorem perms_three : perms 3 =
    [1, pre 1 1, pre 2 1, pre 2 1 * pre 1 1, pre 2 2, pre 2 2 * pre 1 1] := by
  simp [perms, List.range_succ, pre]

theorem sixth_of_perms (k : ℕ) : ∃ l r, perms (4 + k) = l ++ (pre 2 2 * pre 1 1) :: pre 3 1 :: r := by
  obtain ⟨r, hr⟩ := perms_append 3 k
  have hrange : List.range 4 = 0 :: 1 :: [2, 3] := rfl
  have hone : pre 3 0 = 1 := rfl
  rw [hr, perms, hrange, List.flatMap_cons, List.flatMap_cons, perms_three, hone]
  simp only [List.map_cons, List.map_nil, one_mul, mul_one, List.cons_append, List.nil_append]
  exact ⟨[1, pre 1 1, pre 2 1, pre 2 1 * pre 1 1, pre 2 2], _, rfl⟩

/-- With at least four elements the step from the sixth to the seventh array changes three positions. -/
theorem not_minimal {n : ℕ} (hn : 4 ≤ n) {v : ℕ → α} (hv : Set.InjOn v (Set.Iio n)) :
    ¬ (calls n v).IsChain ExchangesPair := by
  intro hchain
  obtain ⟨k, rfl⟩ : ∃ k, n = 4 + k := ⟨n - 4, by omega⟩
  obtain ⟨l, r, hperms⟩ := sixth_of_perms k
  rw [calls_eq, hperms, List.map_append, List.map_cons, List.map_cons, List.isChain_append_cons_cons] at hchain
  have hne : ∀ i j, i < 4 → j < 4 → i ≠ j → some (v i) ≠ some (v j) := fun i j hi hj hij h =>
    hij (hv (Set.mem_Iio.2 (by omega)) (Set.mem_Iio.2 (by omega)) (Option.some.inj h))
  refine not_exchangesPair (a := 0) (b := 2) (c := 3) (by decide) (by decide) (by decide) ?_ ?_ ?_ hchain.2.1 <;>
    rw [contents_getElem? _ _ (by omega), contents_getElem? _ _ (by omega)]
  · exact hne 3 2 (by decide) (by decide) (by decide)
  · exact hne 2 0 (by decide) (by decide) (by decide)
  · exact hne 0 3 (by decide) (by decide) (by decide)

theorem minimal_two (v : ℕ → α) : (calls 2 v).IsChain ExchangesPair := by
  have h : calls 2 v = [[v 0, v 1], [v 1, v 0]] := rfl
  rw [h, List.isChain_pair]
  exact ⟨0, 1, Nat.zero_lt_one, rfl⟩

theorem minimal_three (v : ℕ → α) : (calls 3 v).IsChain ExchangesPair := by
  have h : calls 3 v = [[v 0, v 1, v 2], [v 1, v 0, v 2], [v 2, v 0, v 1], [v 0, v 2, v 1], [v 1, v 2, v 0],
    [v 2, v 1, v 0]] := rfl
  have hinner : ∀ a b c : α, ExchangesPair [a, b, c] [b, a, c] := fun a b c => ⟨0, 1, Nat.zero_lt_one, rfl⟩
  have houter : ∀ a b c : α, ExchangesPair [a, b, c] [c, b, a] := fun a b c => ⟨0, 2, Nat.zero_lt_two, rfl⟩
  simp only [h, List.isChain_cons_cons, List.IsChain.singleton, hinner, houter, and_true]

/-- Two arrays shown one after the other differ by an exchange of one pair exactly if there are at most three
elements. -/
theorem minimal_change_iff (n : ℕ) (hn : 2 ≤ n) (v : ℕ → α) (hv : Set.InjOn v (Set.Iio n)) :
    (calls n v).IsChain ExchangesPair ↔ n ≤ 3 := by
  constructor
  · intro hchain
    by_contra hlt
    exact not_minimal (Nat.not_le.1 hlt) hv hchain
  · intro hle
    obtain rfl | rfl : n = 2 ∨ n = 3 := by omega
    exacts [minimal_two v, minimal_three v]

theorem minimal_change_iff_three : (calls 3 id).IsChain ExchangesPair :=
  (minimal_change_iff 3 (by decide) id (Set.injOn_id _)).2 (Nat.le_refl 3)

theorem four_elements_not_minimal : ¬ ∀ (n : ℕ), 2 ≤ n → ∀ v : ℕ → ℤ, Set.InjOn v (Set.Iio n) →
    (calls n v).IsChain ExchangesPair := by
  intro h
  have hinj : Set.InjOn (Nat.cast : ℕ → ℤ) (Set.Iio 4) := fun i _ j _ hij => Int.ofNat.inj hij
  exact not_minimal (Nat.le_refl 4) hinj (h 4 (by decide) _ hinj)

end CWorkspace.HeapPermutation
