import Mathlib.GroupTheory.Perm.Basic
import Mathlib.Logic.Equiv.Fintype
import Mathlib.Data.Fintype.Perm
import Mathlib.Data.List.Permutation
import Mathlib.Algebra.Order.Ring.Nat
import Mathlib.Tactic.Ring

/-!
# `heapPermute` (`c/libs/heap-permutation.h`)

The array is the memory `v : ℕ → α` behind the `int *`, of which a call with `n` uses the cells
`0, …, n-1`. Every swap is a right multiplication by a transposition of the positions, so a whole
call is described by permutations that do not depend on the contents: `net n` for the array it
leaves behind and `perms n` for the arrays it shows to `cb`.
-/

namespace CWorkspace.HeapPermutation
open Equiv

variable {α : Type*}

def swap (v : ℕ → α) (x y : ℕ) : ℕ → α :=
  let temp := v x
  let v := Function.update v x (v y)
  Function.update v y temp

/-- The memory behind `v`, and the contents `cb` has been called with, oldest call first. -/
structure HeapState (α : Type*) where
  v : ℕ → α
  shown : List (ℕ → α)

/-- `byte i` stops at `n ≤ 255` and `n - 1` is only formed for `n ≥ 2`, so neither wraps. -/
def heapPermute : ℕ → HeapState α → HeapState α
  | 0, s => s
  | 1, s => { s with shown := s.shown ++ [s.v] }
  | n + 2, s => (List.range (n + 2)).foldl (fun s i =>
      let s := heapPermute (n + 1) s
      if (n + 2) % 2 = 1 then { s with v := swap s.v 0 (n + 1) }
      else { s with v := swap s.v i (n + 1) }) s

def contents (n : ℕ) (v : ℕ → α) : List α := List.ofFn fun i : Fin n => v i

theorem swap_eq_comp (v : ℕ → α) (x y : ℕ) : swap v x y = v ∘ Equiv.swap x y := by
  funext k
  simp only [swap, Function.update_apply, Function.comp_apply, Equiv.swap_apply_def]
  split_ifs <;> simp_all

/-- Rotation of the positions below `n`: position `k` receives what stood at `k - 1`. -/
def rot (n : ℕ) : Perm ℕ where
  toFun k := if k < n then (if k = 0 then n - 1 else k - 1) else k
  invFun k := if k < n then (if k + 1 = n then 0 else k + 1) else k
  left_inv k := by grind
  right_inv k := by grind

theorem rot_apply (n k : ℕ) : rot n k = if k < n then (if k = 0 then n - 1 else k - 1) else k := rfl

theorem rot_zero : rot 0 = 1 := by
  ext k; simp [rot_apply]

theorem rot_pow_apply (n : ℕ) : ∀ i ≤ n, ∀ k,
    (rot n ^ i) k = if k < n then (if k < i then k + n - i else k - i) else k
  | 0, _, k => by simp
  | i + 1, hi, k => by
    rw [pow_succ, Perm.mul_apply, rot_pow_apply n i (by omega), rot_apply]
    split_ifs <;> omega

theorem rot_pow_self (n : ℕ) : rot n ^ n = 1 := by
  ext k
  rw [rot_pow_apply n n le_rfl, Perm.one_apply]
  split_ifs <;> omega

theorem rot_mul_swap (m : ℕ) : rot m * Equiv.swap 0 m = rot (m + 1) := by
  ext k
  simp only [Perm.mul_apply, Equiv.swap_apply_def, rot_apply]
  split_ifs <;> omega

/-! ### One call as permutations of the positions -/

/-- The array left behind by a call with `n`: unchanged for odd `n`, rotated for even `n`. -/
def net (n : ℕ) : Perm ℕ := if n % 2 = 1 then 1 else rot n

/-- The swap after the `i`-th recursive call of a call with `m + 1`. -/
def swapAfter (m i : ℕ) : Perm ℕ := if (m + 1) % 2 = 1 then Equiv.swap 0 m else Equiv.swap i m

/-- The array at the start of iteration `i` of a call with `m + 1`. -/
def pre (m : ℕ) : ℕ → Perm ℕ
  | 0 => 1
  | i + 1 => pre m i * net m * swapAfter m i

/-- The arrays shown to `cb` by a call with `n`, in order. -/
def perms : ℕ → List (Perm ℕ)
  | 0 => []
  | 1 => [1]
  | n + 2 => (List.range (n + 2)).flatMap fun i => (perms (n + 1)).map (pre (n + 1) i * ·)

theorem pre_even {m : ℕ} (hm : m % 2 = 0) (i : ℕ) : pre m i = rot (m + 1) ^ i := by
  have h1 : net m * swapAfter m 0 = rot (m + 1) := by
    rw [net, swapAfter, if_neg (by omega), if_pos (by omega), rot_mul_swap]
  induction i with
  | zero => rfl
  | succ i ih =>
    have h2 : swapAfter m i = swapAfter m 0 := by simp [swapAfter, show (m + 1) % 2 = 1 by omega]
    rw [pre, ih, mul_assoc, h2, h1, pow_succ]

theorem pre_odd_apply {m : ℕ} (hm : m % 2 = 1) : ∀ i ≤ m, ∀ k, pre m i k =
    if i = 0 then k else if k = 0 then m else if k < i then k - 1 else if k = m then i - 1 else k
  | 0, _, k => by simp [pre]
  | i + 1, hi, k => by
    rw [pre, net, if_pos hm, mul_one, swapAfter, if_neg (by omega), Perm.mul_apply,
      pre_odd_apply hm i (by omega), Equiv.swap_apply_def]
    grind

theorem pre_last (m : ℕ) : pre m (m + 1) = net (m + 1) := by
  rcases Nat.mod_two_eq_zero_or_one m with hm | hm
  · rw [pre_even hm, rot_pow_self, net, if_pos (by omega)]
  · ext k
    -- the last swap exchanges the last cell with itself
    rw [pre, net, if_pos hm, mul_one, swapAfter, if_neg (by omega), Equiv.swap_self, Perm.mul_apply,
      Equiv.refl_apply, pre_odd_apply hm m le_rfl, net,
      if_neg (c := (m + 1) % 2 = 1) (by omega), rot_apply]
    grind

/-- The element in the last cell during iteration `i`: all `m + 1` positions come up, each once. -/
theorem pre_apply_last (m : ℕ) {i : ℕ} (hi : i ≤ m) :
    pre m i m = if m % 2 = 0 then m - i else if i = 0 then m else i - 1 := by
  rcases Nat.mod_two_eq_zero_or_one m with hm | hm
  · rw [pre_even hm, rot_pow_apply _ _ (by omega)]
    grind
  · rw [pre_odd_apply hm i hi]
    grind

theorem pre_apply_of_lt (m : ℕ) {i k : ℕ} (hi : i ≤ m) (hk : m < k) : pre m i k = k := by
  rcases Nat.mod_two_eq_zero_or_one m with hm | hm
  · rw [pre_even hm, rot_pow_apply _ _ (by omega), if_neg (by omega)]
  · rw [pre_odd_apply hm i hi]
    split_ifs <;> omega

theorem pre_last_inj {m i j : ℕ} (hi : i ≤ m) (hj : j ≤ m) (h : pre m i m = pre m j m) : i = j := by
  rw [pre_apply_last m hi, pre_apply_last m hj] at h
  split_ifs at h <;> omega

theorem exists_pre_last (m : ℕ) {x : ℕ} (hx : x ≤ m) : ∃ i ≤ m, pre m i m = x := by
  rcases Nat.mod_two_eq_zero_or_one m with hm | hm
  · exact ⟨m - x, by omega, by rw [pre_apply_last m (by omega), if_pos hm]; omega⟩
  · rcases Nat.lt_or_ge x m with hlt | hge
    · exact ⟨x + 1, hlt, by rw [pre_apply_last m hlt, if_neg (by omega), if_neg (by omega)]; rfl⟩
    · exact ⟨0, Nat.zero_le _, by rw [pre_apply_last m (Nat.zero_le _), if_neg (by omega), if_pos rfl]; omega⟩

/-! ### A call acts through `net` and `perms` -/

/-- The whole effect of a call: `net n` on the array and `perms n` shown to `cb`. -/
theorem heapPermute_eq : ∀ (n : ℕ) (s : HeapState α),
    heapPermute n s = ⟨s.v ∘ net n, s.shown ++ (perms n).map fun p : Perm ℕ => s.v ∘ p⟩
  | 0, s => by simp [heapPermute, net, rot_zero, perms]
  | 1, s => by simp [heapPermute, net, perms]
  | n + 2, s => by
    -- loop invariant: after `i` iterations the array is `s.v ∘ pre (n + 1) i`
    have loop : ∀ i, (List.range i).foldl (fun s i =>
        let s := heapPermute (n + 1) s
        if (n + 2) % 2 = 1 then { s with v := swap s.v 0 (n + 1) }
        else { s with v := swap s.v i (n + 1) }) s =
        ⟨s.v ∘ pre (n + 1) i, s.shown ++ ((List.range i).flatMap fun i =>
          (perms (n + 1)).map (pre (n + 1) i * ·)).map fun p : Perm ℕ => s.v ∘ p⟩ := by
      intro i
      induction i with
      | zero => simp [pre]
      | succ i ih =>
        rw [List.range_succ, List.foldl_append, ih, List.foldl_cons, List.foldl_nil,
          heapPermute_eq (n + 1)]
        simp only [swap_eq_comp, pre, swapAfter, List.flatMap_append, List.map_append,
          List.flatMap_singleton, List.map_map, ← List.append_assoc]
        split_ifs <;> rfl
    rw [heapPermute, loop, pre_last, perms]

theorem length_perms : ∀ n, 1 ≤ n → (perms n).length = n.factorial
  | 1, _ => rfl
  | n + 2, _ => by
    rw [perms, List.length_flatMap, Nat.factorial_succ, ← length_perms (n + 1) (by omega)]
    simp

/-! ### `perms n` lists every permutation of the first `n` positions once -/

theorem mem_perms : ∀ n, 1 ≤ n → ∀ p : Perm ℕ, p ∈ perms n ↔ ∀ k, n ≤ k → p k = k
  | 1, _, p => by
    constructor
    · intro h k _; simp [List.mem_singleton.1 h]
    · intro h
      have h0 : p 0 = 0 := by
        by_contra hne
        exact hne (p.injective (h _ (Nat.one_le_iff_ne_zero.2 hne)))
      refine List.mem_singleton.2 (Equiv.ext fun k => ?_)
      rcases Nat.eq_zero_or_pos k with rfl | hk
      exacts [h0, h k hk]
  | n + 2, _, p => by
    simp only [perms, List.mem_flatMap, List.mem_range, List.mem_map]
    constructor
    · rintro ⟨i, hi, q, hq, rfl⟩ k hk
      rw [Perm.mul_apply, (mem_perms (n + 1) (by omega) q).1 hq k (by omega),
        pre_apply_of_lt _ (by omega) (by omega)]
    · intro h
      have hlast : p (n + 1) ≤ n + 1 := by
        by_contra hgt
        have := p.injective (h _ (by omega : n + 2 ≤ p (n + 1)))
        omega
      obtain ⟨i, hi, hip⟩ := exists_pre_last (n + 1) hlast
      refine ⟨i, by omega, (pre (n + 1) i)⁻¹ * p, ?_, by simp⟩
      refine (mem_perms (n + 1) (by omega) _).2 fun k hk => ?_
      rw [Perm.mul_apply, Perm.inv_eq_iff_eq]
      rcases Nat.eq_or_lt_of_le hk with rfl | hk
      · exact hip.symm
      · rw [h k (by omega), pre_apply_of_lt _ hi hk]

theorem nodup_perms : ∀ n, 1 ≤ n → (perms n).Nodup
  | 1, _ => List.nodup_singleton _
  | n + 2, _ => by
    rw [perms, List.nodup_flatMap]
    refine ⟨fun i _ => (nodup_perms (n + 1) (by omega)).map (mul_right_injective _), ?_⟩
    refine List.Pairwise.imp_of_mem ?_ List.nodup_range
    intro i j hi hj hne
    -- different iterations put different elements into the last cell
    have hfix : ∀ q ∈ perms (n + 1), ∀ i, (pre (n + 1) i * q) (n + 1) = pre (n + 1) i (n + 1) :=
      fun q hq i => by rw [Perm.mul_apply, (mem_perms (n + 1) (by omega) q).1 hq _ le_rfl]
    intro p hpi hpj
    obtain ⟨q, hq, rfl⟩ := List.mem_map.1 hpi
    obtain ⟨r, hr, hrq⟩ := List.mem_map.1 hpj
    have := congrArg (· (n + 1)) hrq
    simp only [hfix r hr, hfix q hq] at this
    exact hne (pre_last_inj (by simpa [Nat.lt_succ_iff] using hi) (by simpa [Nat.lt_succ_iff] using hj)
      this.symm)

def extend (n : ℕ) (σ : Perm (Fin n)) : Perm ℕ := σ.extendDomain Fin.equivSubtype

theorem extend_apply (n : ℕ) (σ : Perm (Fin n)) (i : Fin n) : extend n σ i = σ i :=
  Perm.extendDomain_apply_image σ Fin.equivSubtype i

theorem extend_injective (n : ℕ) : Function.Injective (extend n) :=
  Perm.extendDomainHom_injective (Fin.equivSubtype (n := n))

theorem extend_of_le {n : ℕ} (σ : Perm (Fin n)) {k : ℕ} (hk : n ≤ k) : extend n σ k = k :=
  Perm.extendDomain_apply_not_subtype σ Fin.equivSubtype (by omega)

theorem perms_eq_univ (n : ℕ) (hn : 1 ≤ n) :
    (perms n : Multiset (Perm ℕ)) = (Finset.univ : Finset (Perm (Fin n))).val.map (extend n) := by
  refine (Multiset.Nodup.ext (Multiset.coe_nodup.2 (nodup_perms n hn))
    (Finset.univ.nodup.map (extend_injective n))).2 fun p => ?_
  rw [Multiset.mem_coe, mem_perms n hn, Multiset.mem_map]
  constructor
  · intro h
    have hlt : ∀ k, k < n ↔ p k < n := fun k => by
      constructor <;> intro hk <;> by_contra hge
      · have := p.injective (h _ (not_lt.1 hge)); omega
      · have := h k (not_lt.1 hge); omega
    refine ⟨(Fin.equivSubtype (n := n)).symm.permCongr (p.subtypePerm fun k => (hlt k).symm),
      Finset.mem_univ _, ?_⟩
    refine Equiv.ext fun k => ?_
    rcases Nat.lt_or_ge k n with hk | hk
    · exact extend_apply n _ ⟨k, hk⟩
    · rw [extend_of_le _ hk, h k hk]
  · rintro ⟨σ, -, rfl⟩ k hk
    exact extend_of_le σ hk

section
variable (n : ℕ) (hn : 1 ≤ n) (v : ℕ → α)

def calls (n : ℕ) (v : ℕ → α) : List (List α) := (heapPermute n ⟨v, []⟩).shown.map (contents n)

include hn

theorem length_calls : (calls n v).length = n.factorial := by
  simp [calls, heapPermute_eq, length_perms n hn]

theorem calls_eq_univ : (calls n v : Multiset (List α)) =
    (Finset.univ : Finset (Perm (Fin n))).val.map fun σ => List.ofFn fun i => v (σ i) := by
  rw [calls, heapPermute_eq, List.nil_append, ← Multiset.map_coe, ← Multiset.map_coe,
    perms_eq_univ n hn, Multiset.map_map, Multiset.map_map]
  refine Multiset.map_congr rfl fun σ _ => ?_
  simp only [Function.comp_apply, contents, extend_apply]

theorem perm_of_mem_calls {l : List α} (hl : l ∈ calls n v) : l.Perm (contents n v) := by
  rw [← Multiset.mem_coe, calls_eq_univ n hn, Multiset.mem_map] at hl
  obtain ⟨σ, -, rfl⟩ := hl
  exact Perm.ofFn_comp_perm σ fun i : Fin n => v i

theorem nodup_calls (hv : Set.InjOn v (Set.Iio n)) : (calls n v).Nodup := by
  rw [← Multiset.coe_nodup, calls_eq_univ n hn]
  refine Finset.univ.nodup.map fun σ τ h => Equiv.ext fun i => Fin.ext ?_
  exact hv (σ i).isLt (τ i).isLt (congrFun (List.ofFn_injective h) i)

/-- With distinct elements the calls are the `n!` permutations of the array, since they are `n!`
different ones. -/
theorem mem_calls_iff (hv : Set.InjOn v (Set.Iio n)) (l : List α) :
    l ∈ calls n v ↔ l.Perm (contents n v) := by
  have hsub : (calls n v).Subperm (contents n v).permutations :=
    (nodup_calls n hn v hv).subperm fun l hl => List.mem_permutations.2 (perm_of_mem_calls n hn v hl)
  have hlen : (contents n v).permutations.length ≤ (calls n v).length := by
    rw [List.length_permutations, length_calls n hn v, contents, List.length_ofFn]
  rw [(hsub.perm_of_length_le hlen).mem_iff, List.mem_permutations]

end

/-- `heapPermute(v, n, cb)` calls `cb` `n!` times, with each of the `n!` rearrangements of the array
positions once. -/
theorem heapPermute_shows_all_permutations (n : ℕ) (hn : 1 ≤ n) (v : ℕ → α) :
    (calls n v).length = n.factorial ∧
    (calls n v : Multiset (List α)) =
      (Finset.univ : Finset (Perm (Fin n))).val.map (fun σ => List.ofFn fun i => v (σ i)) ∧
    (Set.InjOn v (Set.Iio n) →
      (calls n v).Nodup ∧ ∀ l, l ∈ calls n v ↔ l.Perm (contents n v)) :=
  ⟨length_calls n hn v, calls_eq_univ n hn v, fun hv => ⟨nodup_calls n hn v hv, mem_calls_iff n hn v hv⟩⟩

theorem heapPermute_shows_all_permutations_three :
    (calls 3 id).length = Nat.factorial 3 ∧
    (calls 3 id : Multiset (List ℕ)) =
      (Finset.univ : Finset (Perm (Fin 3))).val.map (fun σ => List.ofFn fun i => id (σ i).val) ∧
    (Set.InjOn id (Set.Iio 3) → (calls 3 id).Nodup ∧ ∀ l, l ∈ calls 3 id ↔ l.Perm (contents 3 id)) :=
  heapPermute_shows_all_permutations 3 (by decide) id

end CWorkspace.HeapPermutation
