import CWorkspace.Lib.Comp
import CWorkspace.Lib.Rewrite

/-!
# The loop that replaces

Replacing the first occurrence of a pattern over and over, as a `Comp`: it returns exactly what rewriting
ends with (`replaceLoop_returns_iff`).
-/

namespace CWorkspace

variable {α : Type*} [DecidableEq α] {pat rep s : List α}

/-- The first occurrence replaced; without one the text as it is, and `false`. -/
def replaceFirst (pat rep s : List α) : List α ⊕ (List α × Bool) :=
  match find pat s with
  | none => .inr (s, false)
  | some i => .inl (s.take i ++ rep ++ s.drop (i + pat.length))

theorem replaceFirst_of_free (hs : ¬ pat <:+: s) : replaceFirst pat rep s = .inr (s, false) := by
  rw [replaceFirst, find_eq_none_iff.2 hs]

theorem replaceFirst_first (hne : pat ≠ []) {x y : List α} (hx : First pat x) :
    replaceFirst pat rep (x ++ pat ++ y) = .inl (x ++ rep ++ y) := by
  unfold replaceFirst
  cases h : find pat (x ++ pat ++ y) with
  | none => exact absurd ⟨x, y, rfl⟩ (find_eq_none_iff.1 h)
  | some i =>
    obtain ⟨x', y', heq, rfl, hx'⟩ := find_eq_some hne h
    obtain ⟨rfl, rfl⟩ := hx'.unique hx heq.symm
    simp [List.drop_append]

theorem replaceLoop_returns_iff {r : List α × Bool} :
    (Comp.loop (replaceFirst pat rep) s).Returns r ↔ Rewrites pat rep s r.1 ∧ r.2 = false := by
  obtain ⟨r, b⟩ := r
  constructor
  · refine Comp.loop_induction (P := fun s => Rewrites pat rep s r ∧ b = false) (fun s hs => ?_)
      fun s s' hs hr => ⟨?_, hr.2⟩
    · by_cases hin : pat <:+: s
      · obtain ⟨i, hi⟩ := Option.ne_none_iff_exists'.1 fun h => find_eq_none_iff.1 h hin
        rw [replaceFirst, hi] at hs
        cases hs
      · rw [replaceFirst_of_free hin] at hs
        obtain ⟨rfl, rfl⟩ := Prod.mk.inj (Sum.inr.inj hs)
        exact ⟨.done hin, rfl⟩
    · have hne := hr.1.ne_nil
      by_cases hin : pat <:+: s
      · obtain ⟨x, y, rfl, hx⟩ := exists_first hne hin
        rw [replaceFirst_first hne hx] at hs
        obtain rfl := Sum.inl.inj hs
        exact .step hx hr.1
      · rw [replaceFirst_of_free hin] at hs
        cases hs
  · rintro ⟨h, rfl⟩
    change Rewrites pat rep s r at h
    induction h with
    | done hfree => exact Comp.loop_returns_inr (replaceFirst_of_free hfree)
    | step hx _ ih => exact (Comp.loop_returns_inl (replaceFirst_first hx.ne_nil hx)).2 ih

end CWorkspace
