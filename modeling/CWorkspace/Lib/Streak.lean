import Mathlib.Data.List.Infix
import CWorkspace.Lib.Buf

/-!
# Longest streaks

A counter that starts at one, grows with every hit, and is folded into a maximum and reset to one by a
miss. A streak that no miss ends is never folded in: the maximum reaches `n + 1` exactly if a miss
somewhere follows `n` hits in a row (`foldl_hitStep_max_iff`; `le_streak_max_iff` by positions).
-/

namespace CWorkspace

def hitStep (s : ℕ × ℕ) (hit : Bool) : ℕ × ℕ := if hit then (s.1 + 1, s.2) else (1, max s.2 s.1)

def streak (hit : ℕ → Bool) (h : ℕ) (s : ℕ × ℕ) : ℕ × ℕ := forLoop 1 h (fun s i => hitStep s (hit i)) s

variable {hit : ℕ → Bool} {h : ℕ} {s : ℕ × ℕ}

theorem streak_of_le (hh : h ≤ 1) : streak hit h s = s := forLoop_of_le hh

theorem streak_succ (hh : 1 ≤ h) : streak hit (h + 1) s = hitStep (streak hit h s) (hit h) := forLoop_succ hh

theorem streak_eq_foldl : streak hit h s = ((List.range' 1 (h - 1)).map hit).foldl hitStep s := by
  rw [streak, forLoop, List.foldl_map]

theorem streak_max_mono : s.2 ≤ (streak hit h s).2 := by
  refine forLoop_stable (fun s' : ℕ × ℕ => s.2 ≤ s'.2) (Nat.le_refl _) fun i s' _ _ hs' => ?_
  unfold hitStep
  split
  · exact hs'
  · exact Nat.le_trans hs' (Nat.le_max_left _ _)

theorem concat_suffix_concat {α : Type*} {l l' : List α} {a b : α} :
    l ++ [a] <:+ l' ++ [b] ↔ a = b ∧ l <:+ l' := by
  rw [List.suffix_concat_iff]
  constructor
  · rintro (hnil | ⟨t, heq, ht⟩)
    · exact absurd hnil (List.concat_ne_nil a l)
    · obtain ⟨rfl, hab⟩ := List.append_inj' heq rfl
      exact ⟨List.cons.inj hab |>.1, ht⟩
  · rintro ⟨rfl, hl⟩
    exact .inr ⟨l, rfl, hl⟩

/-- The counter tells the hits at the end, the maximum the hits before any miss. -/
theorem foldl_hitStep (l : List Bool) (n : ℕ) :
    (n + 1 ≤ (l.foldl hitStep (1, 0)).1 ↔ List.replicate n true <:+ l) ∧
    (n + 1 ≤ (l.foldl hitStep (1, 0)).2 ↔ List.replicate n true ++ [false] <:+: l) := by
  induction l using List.reverseRecOn generalizing n with
  | nil =>
    rw [List.foldl_nil, List.suffix_nil, List.infix_nil, List.replicate_eq_nil_iff]
    exact ⟨by omega, iff_of_false (by show ¬ n + 1 ≤ 0; omega) (List.concat_ne_nil _ _)⟩
  | append_singleton l b ih =>
    rw [List.foldl_concat, List.infix_concat_iff, concat_suffix_concat, ← (ih n).2]
    cases b with
    | true =>
      refine ⟨?_, ?_⟩
      · cases n with
        | zero => exact iff_of_true (by simp [hitStep]) (List.nil_suffix)
        | succ m =>
          rw [List.replicate_succ', concat_suffix_concat, ← (ih m).1, eq_self, true_and]
          show m + 1 + 1 ≤ (l.foldl hitStep (1, 0)).1 + 1 ↔ _
          omega
      · show n + 1 ≤ (l.foldl hitStep (1, 0)).2 ↔ _
        simp
    | false =>
      refine ⟨?_, ?_⟩
      · cases n with
        | zero => exact iff_of_true (Nat.le_refl 1) List.nil_suffix
        | succ m =>
          rw [List.replicate_succ', concat_suffix_concat]
          exact iff_of_false (by show ¬ m + 1 + 1 ≤ 1; omega) fun h => absurd h.1 (by decide)
      · show n + 1 ≤ max (l.foldl hitStep (1, 0)).2 (l.foldl hitStep (1, 0)).1 ↔ _
        rw [← (ih n).1, eq_self, true_and]
        omega

theorem foldl_hitStep_max_iff (l : List Bool) (n : ℕ) :
    n + 1 ≤ (l.foldl hitStep (1, 0)).2 ↔ List.replicate n true ++ [false] <:+: l := (foldl_hitStep l n).2

/-- From the start, the maximum is at least `t` exactly if a miss ends a streak of length `t`. -/
theorem le_streak_max_iff {t : ℕ} (ht : 0 < t) : t ≤ (streak hit h (1, 0)).2 ↔
    ∃ m, t ≤ m ∧ m < h ∧ hit m = false ∧ ∀ j, m - t < j → j < m → hit j := by
  obtain ⟨n, rfl⟩ : ∃ n, t = n + 1 := ⟨t - 1, by omega⟩
  rw [streak_eq_foldl, foldl_hitStep_max_iff, List.infix_iff_getElem?]
  simp only [List.length_append, List.length_replicate, List.length_singleton, List.length_map,
    List.length_range']
  have hget : ∀ i, i < h - 1 → ((List.range' 1 (h - 1)).map hit)[i]? = some (hit (1 + i)) := fun i hi => by
    rw [List.getElem?_map, List.getElem?_range' hi, Nat.one_mul]; rfl
  constructor
  · rintro ⟨k, hk, hall⟩
    refine ⟨1 + (n + k), by omega, by omega, ?_, fun j hj hj' => ?_⟩
    · have hmiss := hall n (Nat.lt_succ_self n)
      rw [hget _ (by omega), List.getElem_concat_length (by simp)] at hmiss
      exact Option.some.inj hmiss
    · obtain ⟨i, rfl⟩ : ∃ i, j = 1 + (i + k) := ⟨j - 1 - k, by omega⟩
      have hhit := hall i (by omega)
      rw [hget _ (by omega), List.getElem_append_left (by simp; omega), List.getElem_replicate] at hhit
      exact Option.some.inj hhit
  · rintro ⟨m, hm, hmh, hmiss, hhits⟩
    refine ⟨m - 1 - n, by omega, fun i hi => ?_⟩
    rw [hget _ (by omega)]
    rcases Nat.lt_succ_iff_lt_or_eq.1 hi with hi | rfl
    · rw [List.getElem_append_left (by simpa using hi), List.getElem_replicate]
      exact congrArg some (hhits _ (by omega) (by omega))
    · rw [List.getElem_concat_length (by simp), show 1 + (i + (m - 1 - i)) = m by omega, hmiss]

end CWorkspace
