import CWorkspace.Lib.Seams
import CWorkspace.Str
import CWorkspace.Stub.Gene

/-!
# The two `replaceAll`

The one of the library (`cpp/src/utils/common/str.cpp`) and the generator's copy of it
(`cpp/scripts/gene-gtest-stub.cpp`) search the string from its beginning again after each replacement. When
they end is `replaceAll_halts_iff`; where nothing put in can meet its surroundings in a new occurrence they
replace in one pass (`replaceAll_onePass`). What they return tells nothing (`replaceAll_tells_iff`).
-/

namespace CWorkspace

namespace Str

/-- The string it leaves behind and the value it returns. -/
def replaceAll (str from' to' : List char) : Comp (List char × Bool) :=
  Comp.loop (replaceFirst from' to') str

end Str

namespace ReplaceAll

/-- Pattern and replacement do not overlap. -/
structure Apart {α : Type*} (from' to' : List α) : Prop where
  not_in_to : ¬ from' <:+: to'
  not_in_from : ¬ to' <:+: from'
  left : ¬ LeftSeam from' to'
  right : ¬ RightSeam from' to'

theorem loop_halts_iff {α : Type*} [DecidableEq α] {str from' to' : List α} :
    (Comp.loop (replaceFirst from' to') str).Halts ↔ Ends from' to' str := by
  rw [← settles_iff]
  constructor
  · rintro ⟨r, hr⟩
    exact ⟨r.1, (replaceLoop_returns_iff.1 hr).1⟩
  · rintro ⟨r, hr⟩
    exact ⟨(r, false), replaceLoop_returns_iff.2 ⟨hr, rfl⟩⟩

/-- Both end exactly if the pattern is not empty and, in case it occurs at all, is not part of the replacement
and, in case the rule is tangled, can be got rid of by some replacements. -/
theorem replaceAll_halts_iff (str from' to' : List Str.char) (text pat rep : Stub.string) :
    ((Str.replaceAll str from' to').Halts ↔ Ends from' to' str) ∧
      ((Stub.replaceAll text pat rep).Halts ↔ Ends pat rep text) := by
  refine ⟨loop_halts_iff, ?_⟩
  rw [Stub.replaceAll, Stub.replaceStep_eq]
  exact loop_halts_iff

theorem replaceAll_never_ends :
    (¬ (Str.replaceAll [97] [] [98]).Halts ∧ ¬ (Str.replaceAll [97] [97] [97, 97]).Halts) ∧
    ¬ (Stub.replaceAll ['a'] [] ['b']).Halts ∧ ¬ (Stub.replaceAll ['a'] ['a'] ['a', 'a']).Halts := by
  simp only [Stub.replaceAll, Stub.replaceStep_eq, Str.replaceAll, loop_halts_iff]
  refine ⟨⟨fun h => h.1 rfl, fun h => (h.2 ?_).1 ?_⟩, fun h => h.1 rfl, fun h => (h.2 ?_).1 ?_⟩ <;> decide

theorem loop_onePass {α : Type*} [DecidableEq α] {str from' to' : List α} (h : Apart from' to')
    {r : List α × Bool} : (Comp.loop (replaceFirst from' to') str).Returns r ↔
      r = (onePass from' to' str, false) := by
  have hpass := rewrites_onePass h.not_in_to h.not_in_from h.left h.right str
  obtain ⟨r, b⟩ := r
  rw [replaceLoop_returns_iff]
  constructor
  · rintro ⟨hr, rfl⟩
    rw [hr.unique hpass]
  · intro heq
    obtain ⟨rfl, rfl⟩ := Prod.mk.inj heq
    exact ⟨hpass, rfl⟩

/-- Both replace in one pass what does not overlap with its replacement. -/
theorem replaceAll_onePass :
    (∀ str from' to' : List Str.char, Apart from' to' →
      ∀ r, (Str.replaceAll str from' to').Returns r ↔ r = (onePass from' to' str, false)) ∧
    ∀ str from' to' : Stub.string, Apart from' to' →
      ∀ r, (Stub.replaceAll str from' to').Returns r ↔ r = (onePass from' to' str, false) := by
  refine ⟨fun str from' to' h r => loop_onePass h, fun str from' to' h r => ?_⟩
  rw [Stub.replaceAll, Stub.replaceStep_eq]
  exact loop_onePass h

theorem replaceAll_onePass_dashes :
    (Str.replaceAll [97, 45, 45, 98] [45] [95, 95]).Returns ([97, 95, 95, 95, 95, 98], false) ∧
    (Stub.replaceAll "a--b".toList "-".toList "__".toList).Returns ("a____b".toList, false) :=
  ⟨(replaceAll_onePass.1 _ _ _ ⟨by decide, by decide, by decide, by decide⟩ _).2 rfl,
    (replaceAll_onePass.2 _ _ _ ⟨by decide, by decide, by decide, by decide⟩ _).2 rfl⟩

/-! ### The value returned -/

/-- The value handed back is the one of the innermost call, for which nothing is left to replace. -/
theorem returns_false {str from' to' : List Str.char} {r : List Str.char × Bool}
    (h : (Str.replaceAll str from' to').Returns r) : r.2 = false := (replaceLoop_returns_iff.1 h).2

/-- Where `replaceAll` ends, its value says whether something was replaced exactly if nothing was. -/
theorem replaceAll_tells_iff (str from' to' : List Str.char) (r : List Str.char × Bool)
    (h : (Str.replaceAll str from' to').Returns r) :
    (r.2 = true ↔ from' <:+: str) ↔ ¬ from' <:+: str := by
  rw [returns_false h]
  simp only [Bool.false_eq_true, false_iff]

theorem replaceAll_tells_iff_free :
    (([97], false) : List Str.char × Bool).2 = true ↔ [98] <:+: ([97] : List Str.char) := by
  have hfree : ¬ [98] <:+: ([97] : List Str.char) := by decide
  exact (replaceAll_tells_iff [97] [98] [99] ([97], false) (replaceLoop_returns_iff.2 ⟨.done hfree, rfl⟩)).2 hfree

theorem replaced_returns_false : ¬ ∀ (str from' to' : List Str.char) (r : List Str.char × Bool),
    (Str.replaceAll str from' to').Returns r → (r.2 = true ↔ from' <:+: str) := by
  intro h
  have hfirst : First [97] ([] : List Str.char) := first_nil (by decide)
  have hfree : ¬ [97] <:+: ([98] : List Str.char) := by decide
  have hreturns : (Str.replaceAll [97] [97] [98]).Returns ([98], false) :=
    replaceLoop_returns_iff.2 ⟨.step (y := []) hfirst (.done hfree), rfl⟩
  exact absurd ((h _ _ _ _ hreturns).2 (by decide)) Bool.false_ne_true

end ReplaceAll

end CWorkspace
