import Mathlib.Data.Int.Notation
import Mathlib.Data.List.Basic
import Mathlib.Data.List.Pairwise
import Mathlib.Tactic.ByContra

/-!
# Sorted lists under a comparison function

`cmp a b` is negative, zero or positive as `a` comes before `b`, counts as the same key, or comes after it. A
list that is strictly sorted under such a function is a set of keys, with the operations of one: `set`, `erase`,
`find` and `findGe`. Each of them looks at one side of an element only (`set_append_left`, …), which is how a
search tree carries them out.
-/

namespace CWorkspace

/-- The sign of `cmp` is that of a total preorder. -/
structure Compares {D : Type*} (cmp : D → D → ℤ) : Prop where
  flip : ∀ {a b}, 0 < cmp a b ↔ cmp b a < 0
  trans : ∀ {a b c}, cmp a b ≤ 0 → cmp b c ≤ 0 → cmp a c ≤ 0

namespace Compares
variable {D : Type*} {cmp : D → D → ℤ} {a b c d : D} {l r : List D}

theorem self (h : Compares cmp) (a : D) : cmp a a = 0 := by
  have := h.flip (a := a) (b := a)
  omega

theorem eq_comm (h : Compares cmp) : cmp a b = 0 ↔ cmp b a = 0 := by
  have h₁ := h.flip (a := a) (b := b)
  have h₂ := h.flip (a := b) (b := a)
  omega

theorem lt_of_lt_of_le (h : Compares cmp) (hab : cmp a b < 0) (hbc : cmp b c ≤ 0) : cmp a c < 0 := by
  have hac := h.trans (Int.le_of_lt hab) hbc
  by_contra hne
  have hca : cmp c a = 0 := h.eq_comm.1 (by omega)
  have hba := h.trans hbc (Int.le_of_eq hca)
  have := h.flip (a := b) (b := a)
  omega

theorem lt_of_le_of_lt (h : Compares cmp) (hab : cmp a b ≤ 0) (hbc : cmp b c < 0) : cmp a c < 0 := by
  have hac := h.trans hab (Int.le_of_lt hbc)
  by_contra hne
  have hca : cmp c a = 0 := h.eq_comm.1 (by omega)
  have hcb := h.trans (Int.le_of_eq hca) hab
  have := h.flip (a := c) (b := b)
  omega

end Compares

namespace Keys
variable {D : Type*} (cmp : D → D → ℤ)

def Sorted (l : List D) : Prop := l.Pairwise fun a b => cmp a b < 0

def before (d : D) (l : List D) : List D := l.filter fun a => cmp a d < 0
def after (d : D) (l : List D) : List D := l.filter fun a => 0 < cmp a d

def find (d : D) (l : List D) : Option D := l.find? fun a => cmp a d = 0

/-- The first element that does not come before `d`. -/
def findGe (d : D) (l : List D) : Option D := l.find? fun a => 0 ≤ cmp a d

def set (d : D) (l : List D) : List D := before cmp d l ++ d :: after cmp d l

def erase (d : D) (l : List D) : List D := l.filter fun a => cmp a d ≠ 0

variable {cmp} {d x : D} {l r : List D}

theorem sorted_append_cons : Sorted cmp (l ++ x :: r) ↔
    Sorted cmp l ∧ Sorted cmp r ∧ (∀ a ∈ l, cmp a x < 0) ∧ (∀ b ∈ r, cmp x b < 0) ∧ ∀ a ∈ l, ∀ b ∈ r, cmp a b < 0 := by
  unfold Sorted
  rw [List.pairwise_append, List.pairwise_cons]
  constructor
  · rintro ⟨hl, ⟨hx, hr⟩, hlr⟩
    exact ⟨hl, hr, fun a ha => hlr a ha x List.mem_cons_self, hx,
      fun a ha b hb => hlr a ha b (List.mem_cons_of_mem x hb)⟩
  · rintro ⟨hl, hr, hlx, hxr, hlr⟩
    refine ⟨hl, ⟨hxr, hr⟩, fun a ha b hb => ?_⟩
    rcases List.mem_cons.1 hb with rfl | hb
    · exact hlx a ha
    · exact hlr a ha b hb

theorem mem_before {a : D} : a ∈ before cmp d l ↔ a ∈ l ∧ cmp a d < 0 := by
  unfold before
  rw [List.mem_filter, decide_eq_true_eq]

theorem mem_after {a : D} : a ∈ after cmp d l ↔ a ∈ l ∧ 0 < cmp a d := by
  unfold after
  rw [List.mem_filter, decide_eq_true_eq]

theorem mem_of_mem_set {a : D} (ha : a ∈ set cmp d l) : a = d ∨ a ∈ l := by
  rcases List.mem_append.1 ha with ha | ha
  · exact .inr (mem_before.1 ha).1
  · rcases List.mem_cons.1 ha with ha | ha
    · exact .inl ha
    · exact .inr (mem_after.1 ha).1

theorem sorted_set (h : Compares cmp) (hs : Sorted cmp l) : Sorted cmp (set cmp d l) := by
  have hbefore : ∀ a ∈ before cmp d l, cmp a d < 0 := fun a ha => (mem_before.1 ha).2
  have hafter : ∀ b ∈ after cmp d l, cmp d b < 0 := fun b hb => h.flip.1 (mem_after.1 hb).2
  exact sorted_append_cons.2 ⟨hs.filter _, hs.filter _, hbefore, hafter,
    fun a ha b hb => h.lt_of_lt_of_le (hbefore a ha) (Int.le_of_lt (hafter b hb))⟩

theorem sorted_erase (hs : Sorted cmp l) : Sorted cmp (erase cmp d l) := hs.filter _

section
variable (hl : ∀ a ∈ l, cmp a d < 0)
include hl

theorem before_of_lt : before cmp d l = l := List.filter_eq_self.2 fun a ha => decide_eq_true (hl a ha)

theorem after_of_lt : after cmp d l = [] :=
  List.filter_eq_nil_iff.2 fun a ha hd => by
    have := hl a ha
    have := of_decide_eq_true hd
    omega

theorem find_of_lt : find cmp d l = none :=
  List.find?_eq_none.2 fun a ha hd => by
    have := hl a ha
    have := of_decide_eq_true hd
    omega

theorem findGe_of_lt : findGe cmp d l = none :=
  List.find?_eq_none.2 fun a ha hd => by
    have := hl a ha
    have := of_decide_eq_true hd
    omega

theorem erase_of_lt : erase cmp d l = l :=
  List.filter_eq_self.2 fun a ha => decide_eq_true (Int.ne_of_lt (hl a ha))

end

section
variable (hr : ∀ b ∈ r, 0 < cmp b d)
include hr

theorem before_of_gt : before cmp d r = [] :=
  List.filter_eq_nil_iff.2 fun b hb hd => by
    have := hr b hb
    have := of_decide_eq_true hd
    omega

theorem after_of_gt : after cmp d r = r := List.filter_eq_self.2 fun b hb => decide_eq_true (hr b hb)

theorem find_of_gt : find cmp d r = none :=
  List.find?_eq_none.2 fun b hb hd => by
    have := hr b hb
    have := of_decide_eq_true hd
    omega

theorem erase_of_gt : erase cmp d r = r :=
  List.filter_eq_self.2 fun b hb => decide_eq_true (Int.ne_of_gt (hr b hb))

end

theorem before_append_cons : before cmp d (l ++ x :: r) =
    before cmp d l ++ if cmp x d < 0 then x :: before cmp d r else before cmp d r := by
  unfold before
  rw [List.filter_append, List.filter_cons]
  simp only [decide_eq_true_eq]

theorem after_append_cons : after cmp d (l ++ x :: r) =
    after cmp d l ++ if 0 < cmp x d then x :: after cmp d r else after cmp d r := by
  unfold after
  rw [List.filter_append, List.filter_cons]
  simp only [decide_eq_true_eq]

theorem erase_append_cons : erase cmp d (l ++ x :: r) =
    erase cmp d l ++ if cmp x d ≠ 0 then x :: erase cmp d r else erase cmp d r := by
  unfold erase
  rw [List.filter_append, List.filter_cons]
  simp only [decide_eq_true_eq]

theorem find_append_cons : find cmp d (l ++ x :: r) =
    (find cmp d l).or (if cmp x d = 0 then some x else find cmp d r) := by
  unfold find
  rw [List.find?_append]
  by_cases hx : cmp x d = 0
  · rw [List.find?_cons, decide_eq_true hx, if_pos hx]
  · rw [List.find?_cons, decide_eq_false hx, if_neg hx]

theorem findGe_append_cons : findGe cmp d (l ++ x :: r) =
    (findGe cmp d l).or (if 0 ≤ cmp x d then some x else findGe cmp d r) := by
  unfold findGe
  rw [List.find?_append]
  by_cases hx : 0 ≤ cmp x d
  · rw [List.find?_cons, decide_eq_true hx, if_pos hx]
  · rw [List.find?_cons, decide_eq_false hx, if_neg hx]

variable (h : Compares cmp) (hs : Sorted cmp (l ++ x :: r))
include h hs

theorem gt_of_mem_right (hx : 0 ≤ cmp x d) : ∀ b ∈ r, 0 < cmp b d := by
  intro b hb
  have hxb := (sorted_append_cons.1 hs).2.2.2.1 b hb
  have hdx := h.flip (a := d) (b := x)
  exact h.flip.2 (h.lt_of_le_of_lt (by omega : cmp d x ≤ 0) hxb)

theorem lt_of_mem_left (hx : cmp x d ≤ 0) : ∀ a ∈ l, cmp a d < 0 :=
  fun a ha => h.lt_of_lt_of_le ((sorted_append_cons.1 hs).2.2.1 a ha) hx

theorem set_append_left (hx : 0 < cmp x d) : set cmp d (l ++ x :: r) = set cmp d l ++ x :: r := by
  have hr := gt_of_mem_right h hs (Int.le_of_lt hx)
  unfold set
  rw [before_append_cons, after_append_cons, if_neg (by omega), if_pos hx, before_of_gt hr, after_of_gt hr,
    List.append_nil, List.append_assoc, List.cons_append]

theorem set_append_right (hx : cmp x d < 0) : set cmp d (l ++ x :: r) = l ++ x :: set cmp d r := by
  have hl := lt_of_mem_left h hs (Int.le_of_lt hx)
  unfold set
  rw [before_append_cons, after_append_cons, if_pos hx, if_neg (by omega), before_of_lt hl, after_of_lt hl,
    List.nil_append, List.append_assoc, List.cons_append]

theorem set_append_at (hx : cmp x d = 0) : set cmp d (l ++ x :: r) = l ++ d :: r := by
  have hl := lt_of_mem_left h hs (Int.le_of_eq hx)
  have hr := gt_of_mem_right h hs (Int.le_of_eq hx.symm)
  unfold set
  rw [before_append_cons, after_append_cons, if_neg (by omega), if_neg (by omega), before_of_lt hl,
    after_of_lt hl, before_of_gt hr, after_of_gt hr, List.append_nil, List.nil_append]

theorem find_append_left (hx : 0 < cmp x d) : find cmp d (l ++ x :: r) = find cmp d l := by
  rw [find_append_cons, if_neg (by omega), find_of_gt (gt_of_mem_right h hs (Int.le_of_lt hx)), Option.or_none]

theorem find_append_right (hx : cmp x d < 0) : find cmp d (l ++ x :: r) = find cmp d r := by
  rw [find_append_cons, if_neg (by omega), find_of_lt (lt_of_mem_left h hs (Int.le_of_lt hx)), Option.none_or]

theorem find_append_at (hx : cmp x d = 0) : find cmp d (l ++ x :: r) = some x := by
  rw [find_append_cons, if_pos hx, find_of_lt (lt_of_mem_left h hs (Int.le_of_eq hx)), Option.none_or]

theorem findGe_append_right (hx : cmp x d < 0) : findGe cmp d (l ++ x :: r) = findGe cmp d r := by
  rw [findGe_append_cons, if_neg (by omega), findGe_of_lt (lt_of_mem_left h hs (Int.le_of_lt hx)), Option.none_or]

theorem findGe_append_at (hx : cmp x d = 0) : findGe cmp d (l ++ x :: r) = some x := by
  rw [findGe_append_cons, if_pos (by omega), findGe_of_lt (lt_of_mem_left h hs (Int.le_of_eq hx)), Option.none_or]

theorem erase_append_left (hx : 0 < cmp x d) : erase cmp d (l ++ x :: r) = erase cmp d l ++ x :: r := by
  rw [erase_append_cons, if_pos (by omega), erase_of_gt (gt_of_mem_right h hs (Int.le_of_lt hx))]

theorem erase_append_right (hx : cmp x d < 0) : erase cmp d (l ++ x :: r) = l ++ x :: erase cmp d r := by
  rw [erase_append_cons, if_pos (by omega), erase_of_lt (lt_of_mem_left h hs (Int.le_of_lt hx))]

theorem erase_append_at (hx : cmp x d = 0) : erase cmp d (l ++ x :: r) = l ++ r := by
  rw [erase_append_cons, if_neg (by omega), erase_of_lt (lt_of_mem_left h hs (Int.le_of_eq hx)),
    erase_of_gt (gt_of_mem_right h hs (Int.le_of_eq hx.symm))]

end Keys

end CWorkspace
