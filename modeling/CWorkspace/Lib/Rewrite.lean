import Mathlib.Data.List.Infix
import Mathlib.Data.List.Forall2
import Mathlib.Tactic.Push
import Mathlib.Tactic.TypeStar

/-!
# Replacing the leftmost occurrence until there is none

`Rewrites pat rep s r`: replacing the first occurrence of `pat` by `rep`, again and again from the start,
ends with `r`, which is free of `pat`. It never ends if `rep` contains `pat` and `s` does
(`Rewrites.not_infix`), and ends if a measure gets smaller (`settles_of_measure`). An element that is not in
`pat` separates what is left of it from what is right of it (`rewrites_append_cons`), so a text woven from
fences and holes is rewritten hole by hole (`rewrites_weave`).
-/

namespace CWorkspace

variable {α : Type*}

/-- What is left of an occurrence of `pat` has no earlier one, not even overlapping it. -/
def First (pat x : List α) : Prop := ¬ pat <:+: x ++ pat.dropLast

theorem infix_append_cons {pat : List α} {d : α} (hd : d ∉ pat) (u v : List α) :
    pat <:+: u ++ d :: v ↔ pat <:+: u ∨ pat <:+: v := by
  rw [List.infix_append_iff_ne_nil, List.infix_cons_iff]
  constructor
  · rintro (hu | (hpre | hv) | ⟨p, q, -, hq, rfl, -, hpre⟩)
    · exact .inl hu
    · rcases List.prefix_cons_iff.1 hpre with rfl | ⟨_, rfl, -⟩
      exacts [.inl List.nil_infix, absurd List.mem_cons_self hd]
    · exact .inr hv
    · rcases List.prefix_cons_iff.1 hpre with rfl | ⟨_, rfl, -⟩
      exacts [absurd rfl hq, absurd (by simp) hd]
  · rintro (hu | hv)
    exacts [.inl hu, .inr (.inl (.inr hv))]

theorem First.not_infix {pat x : List α} (h : First pat x) : ¬ pat <:+: x :=
  fun h' => h (h'.trans (List.prefix_append _ _).isInfix)

theorem First.ne_nil {pat x : List α} (h : First pat x) : pat ≠ [] := by
  rintro rfl; exact h List.nil_infix

theorem first_nil {pat : List α} (h : pat ≠ []) : First pat [] := by
  intro hin
  have hlen := hin.length_le
  have hpos := List.length_pos_of_ne_nil h
  rw [List.nil_append, List.length_dropLast] at hlen
  omega

theorem first_append_cons {pat : List α} {d : α} (hd : d ∉ pat) (u v : List α) :
    First pat (u ++ d :: v) ↔ ¬ pat <:+: u ∧ First pat v := by
  rw [First, First, List.append_assoc, List.cons_append, infix_append_cons hd, not_or]

theorem First.cons {pat x y : List α} {a : α} (hx : First pat x) (hpre : ¬ pat <+: a :: (x ++ pat ++ y)) :
    First pat (a :: x) := by
  intro hin
  rcases List.infix_cons_iff.1 hin with h' | h'
  · have hdrop : pat.dropLast <+: pat ++ y := (List.dropLast_prefix pat).trans (List.prefix_append _ _)
    exact hpre (h'.trans (by simpa using hdrop))
  · exact hx h'

theorem First.length_le {pat x y x' y' : List α} (hx' : First pat x')
    (h : x ++ pat ++ y = x' ++ pat ++ y') : x'.length ≤ x.length := by
  refine Nat.le_of_not_lt fun hlt => hx' ?_
  have hpos := List.length_pos_of_ne_nil hx'.ne_nil
  have hpre : x ++ pat <+: x' ++ pat ++ y' := ⟨y, h⟩
  have hpre' : x' ++ pat.dropLast <+: x' ++ pat ++ y' := by
    rw [List.append_assoc, List.prefix_append_right_inj]
    exact (List.dropLast_prefix pat).trans (List.prefix_append _ _)
  have hshort := List.prefix_of_prefix_length_le hpre hpre' (by
    simp only [List.length_append, List.length_dropLast]; omega)
  exact (List.suffix_append x pat).isInfix.trans hshort.isInfix

theorem First.not_prefix_drop {pat x : List α} (hx : First pat x) (y : List α) {i : ℕ} (hi : i < x.length) :
    ¬ pat <+: (x ++ pat ++ y).drop i := by
  rintro ⟨z, hz⟩
  have h : (x ++ pat ++ y).take i ++ pat ++ z = x ++ pat ++ y := by
    rw [List.append_assoc, hz, List.take_append_drop]
  have hle := hx.length_le h
  rw [List.length_take] at hle
  omega

theorem First.unique {pat x y x' y' : List α} (hx : First pat x) (hx' : First pat x')
    (h : x ++ pat ++ y = x' ++ pat ++ y') : x = x' ∧ y = y' := by
  have hlen : x.length = x'.length := Nat.le_antisymm (hx.length_le h.symm) (hx'.length_le h)
  rw [List.append_assoc, List.append_assoc] at h
  obtain ⟨rfl, hy⟩ := List.append_inj h hlen
  exact ⟨rfl, List.append_cancel_left hy⟩

theorem exists_first {pat s : List α} (hne : pat ≠ []) (h : pat <:+: s) :
    ∃ x y, s = x ++ pat ++ y ∧ First pat x := by
  induction s with
  | nil => exact absurd (List.infix_nil.1 h) hne
  | cons a s ih =>
    by_cases hpre : pat <+: a :: s
    · obtain ⟨y, hy⟩ := hpre
      exact ⟨[], y, hy.symm, first_nil hne⟩
    · obtain ⟨x, y, rfl, hx⟩ := ih ((List.infix_cons_iff.1 h).resolve_left hpre)
      exact ⟨a :: x, y, rfl, hx.cons hpre⟩

def find [DecidableEq α] (pat : List α) : List α → Option ℕ
  | [] => if pat = [] then some 0 else none
  | a :: s => if pat <+: a :: s then some 0 else (find pat s).map (· + 1)

section
variable [DecidableEq α] {pat : List α}

theorem find_eq_none_iff {s : List α} : find pat s = none ↔ ¬ pat <:+: s := by
  induction s with
  | nil => simp [find]
  | cons a s ih =>
    rw [find, List.infix_cons_iff]
    by_cases hpre : pat <+: a :: s
    · simp [hpre]
    · simp [hpre, ih]

theorem find_eq_some {s : List α} (hne : pat ≠ []) {i : ℕ} (h : find pat s = some i) :
    ∃ x y, s = x ++ pat ++ y ∧ x.length = i ∧ First pat x := by
  induction s generalizing i with
  | nil => simp [find, hne] at h
  | cons a s ih =>
    rw [find] at h
    by_cases hpre : pat <+: a :: s
    · rw [if_pos hpre] at h
      obtain ⟨y, hy⟩ := hpre
      exact ⟨[], y, hy.symm, Option.some.inj h, first_nil hne⟩
    · rw [if_neg hpre] at h
      obtain ⟨j, hj, rfl⟩ := Option.map_eq_some_iff.1 h
      obtain ⟨x, y, rfl, rfl, hx⟩ := ih hj
      exact ⟨a :: x, y, rfl, rfl, hx.cons hpre⟩

end

/-! ### Rewriting -/

inductive Rewrites (pat rep : List α) : List α → List α → Prop
  | done {s : List α} : ¬ pat <:+: s → Rewrites pat rep s s
  | step {x y r : List α} : First pat x → Rewrites pat rep (x ++ rep ++ y) r →
      Rewrites pat rep (x ++ pat ++ y) r

def Settles (pat rep s : List α) : Prop := ∃ r, Rewrites pat rep s r

namespace Rewrites
variable {pat rep s r : List α}

theorem free (h : Rewrites pat rep s r) : ¬ pat <:+: r := by
  induction h with
  | done h => exact h
  | step _ _ ih => exact ih

theorem eq_of_free (h : Rewrites pat rep s r) (hs : ¬ pat <:+: s) : r = s := by
  cases h with
  | done => rfl
  | step => exact absurd ⟨_, _, rfl⟩ hs

theorem ne_nil (h : Rewrites pat rep s r) : pat ≠ [] := by
  rintro rfl; exact h.free List.nil_infix

/-- A replacement that contains the pattern reproduces it for ever. -/
theorem not_infix (h : Rewrites pat rep s r) (hrep : pat <:+: rep) : ¬ pat <:+: s := by
  induction h with
  | done h => exact h
  | @step x y r _ _ ih => exact absurd (hrep.trans ⟨x, y, rfl⟩) ih

theorem self (hne : pat ≠ []) (hrep : ¬ pat <:+: rep) : Rewrites pat rep pat rep := by
  have h := Rewrites.step (y := []) (first_nil hne) (.done (by rwa [List.nil_append, List.append_nil]))
  rwa [List.nil_append, List.append_nil, List.nil_append, List.append_nil] at h

theorem inv (h : Rewrites pat rep s r) : (r = s ∧ ¬ pat <:+: s) ∨
    ∃ x y, s = x ++ pat ++ y ∧ First pat x ∧ Rewrites pat rep (x ++ rep ++ y) r := by
  cases h with
  | done hfree => exact .inl ⟨rfl, hfree⟩
  | step hx hr => exact .inr ⟨_, _, rfl, hx, hr⟩

theorem unique {r' : List α} (h : Rewrites pat rep s r) (h' : Rewrites pat rep s r') : r' = r := by
  induction h with
  | done hfree => exact h'.eq_of_free hfree
  | step hx _ ih =>
    rcases h'.inv with ⟨-, hfree⟩ | ⟨x', y', heq, hx', hr'⟩
    · exact absurd ⟨_, _, rfl⟩ hfree
    · obtain ⟨rfl, rfl⟩ := hx.unique hx' heq
      exact ih hr'

theorem length_le (h : Rewrites pat rep s r) (hlen : rep.length ≤ pat.length) : r.length ≤ s.length := by
  induction h with
  | done => exact Nat.le_refl _
  | step _ _ ih =>
    simp only [List.length_append] at ih ⊢
    omega

theorem length_add_le (h : Rewrites pat rep s r) (hlen : rep.length ≤ pat.length) (hs : pat <:+: s) :
    r.length + pat.length ≤ s.length + rep.length := by
  cases h with
  | done hfree => exact absurd hs hfree
  | step _ hr =>
    have hle := hr.length_le hlen
    simp only [List.length_append] at hle ⊢
    omega

end Rewrites

theorem rewrites_iff_of_free {pat rep s r : List α} (hs : ¬ pat <:+: s) : Rewrites pat rep s r ↔ r = s := by
  constructor
  · intro h
    exact h.eq_of_free hs
  · rintro rfl
    exact .done hs

theorem rewrites_twice_iff {pat rep s : List α} {P : List α → List α → Prop} :
    (∃ r, Rewrites pat rep s r ∧ ∃ r', Rewrites pat rep s r' ∧ P r r') ↔ ∃ r, Rewrites pat rep s r ∧ P r r := by
  constructor
  · rintro ⟨r, hr, r', hr', h⟩
    rw [hr.unique hr'] at h
    exact ⟨r, hr, h⟩
  · rintro ⟨r, hr, h⟩
    exact ⟨r, hr, r, hr, h⟩

theorem rewrites_self_iff {pat rep r : List α} (hne : pat ≠ []) :
    Rewrites pat rep pat r ↔ ¬ pat <:+: rep ∧ r = rep := by
  constructor
  · intro h
    have hrep : ¬ pat <:+: rep := fun hin => h.not_infix hin List.infix_rfl
    exact ⟨hrep, (Rewrites.self hne hrep).unique h⟩
  · rintro ⟨hrep, rfl⟩
    exact .self hne hrep

theorem settles_of_measure {pat rep : List α} (hne : pat ≠ []) (m : List α → ℕ)
    (hm : ∀ x y, m (x ++ rep ++ y) < m (x ++ pat ++ y)) (s : List α) : Settles pat rep s := by
  induction hn : m s using Nat.strong_induction_on generalizing s with
  | _ n ih =>
    by_cases hs : pat <:+: s
    · obtain ⟨x, y, rfl, hx⟩ := exists_first hne hs
      obtain ⟨r, hr⟩ := ih _ (hn ▸ hm x y) _ rfl
      exact ⟨r, .step hx hr⟩
    · exact ⟨s, .done hs⟩

theorem settles_of_length {pat rep : List α} (h : rep.length < pat.length) (s : List α) :
    Settles pat rep s := by
  refine settles_of_measure (List.ne_nil_of_length_pos (by omega)) List.length (fun x y => ?_) s
  simp only [List.length_append]
  omega

theorem settles_of_not_mem [DecidableEq α] {pat rep : List α} {c : α} (hc : c ∈ pat) (hr : c ∉ rep)
    (s : List α) : Settles pat rep s := by
  refine settles_of_measure (List.ne_nil_of_mem hc) (List.count c) (fun x y => ?_) s
  have := List.count_pos_iff.2 hc
  rw [List.count_append, List.count_append, List.count_append, List.count_append,
    List.count_eq_zero_of_not_mem hr]
  omega

section
variable {pat rep : List α} {d : α} (hd : d ∉ pat)
include hd

theorem Rewrites.append_cons {u v ru rv : List α} (hu : Rewrites pat rep u ru) (hv : Rewrites pat rep v rv) :
    Rewrites pat rep (u ++ d :: v) (ru ++ d :: rv) := by
  induction hu with
  | @done u hfree =>
    induction hv with
    | done hfree' =>
      refine .done fun h => ?_
      exact ((infix_append_cons hd _ _).1 h).elim hfree hfree'
    | @step x y r hx _ ih =>
      have h := Rewrites.step (x := u ++ d :: x) (y := y) ((first_append_cons hd _ _).2 ⟨hfree, hx⟩)
        (r := u ++ d :: r) (by simpa using ih)
      simpa using h
  | @step x y r hx _ ih =>
    have h := Rewrites.step (x := x) (y := y ++ d :: v) hx (r := r ++ d :: rv) (by simpa using ih)
    simpa using h

theorem rewrites_append_cons {u v r : List α} : Rewrites pat rep (u ++ d :: v) r ↔
    ∃ ru rv, r = ru ++ d :: rv ∧ Rewrites pat rep u ru ∧ Rewrites pat rep v rv := by
  constructor
  · intro h
    generalize hs : u ++ d :: v = s at h
    induction h generalizing u v with
    | @done s hfree =>
      subst hs
      rw [infix_append_cons hd, not_or] at hfree
      exact ⟨u, v, rfl, .done hfree.1, .done hfree.2⟩
    | @step x y r hx _ ih =>
      rw [List.append_assoc] at hs
      rcases List.append_eq_append_iff.1 hs with ⟨c, rfl, hc⟩ | ⟨c, rfl, hc⟩
      · -- the occurrence begins right of `d`
        cases c with
        | nil =>
          cases pat with
          | nil => exact absurd rfl hx.ne_nil
          | cons p pat =>
            obtain ⟨rfl, -⟩ := List.cons.inj hc
            exact absurd List.mem_cons_self hd
        | cons d' c =>
          obtain ⟨rfl, rfl⟩ := List.cons.inj hc
          obtain ⟨hfree, hc⟩ := (first_append_cons hd _ _).1 hx
          obtain ⟨ru, rv, rfl, hu, hv⟩ := ih (u := u) (v := c ++ rep ++ y) (by simp)
          exact ⟨ru, rv, rfl, hu, by simpa using Rewrites.step hc hv⟩
      · -- it begins left of `d`, and ends there
        rcases List.append_eq_append_iff.1 hc with ⟨e, rfl, rfl⟩ | ⟨e, rfl, hv⟩
        · obtain ⟨ru, rv, rfl, hu, hv⟩ := ih (u := x ++ rep ++ e) (v := v) (by simp)
          exact ⟨ru, rv, rfl, by simpa using Rewrites.step hx hu, hv⟩
        · cases e with
          | nil =>
            rw [List.nil_append] at hv
            rw [List.append_nil] at hx hd ih ⊢
            obtain ⟨ru, rv, rfl, hu, hv⟩ := ih (u := x ++ rep) (v := v) (by rw [hv])
            refine ⟨ru, rv, rfl, ?_, hv⟩
            simpa using Rewrites.step (y := []) hx (by rwa [List.append_nil])
          | cons d' e =>
            obtain ⟨rfl, -⟩ := List.cons.inj hv
            exact absurd (by simp) hd
  · rintro ⟨ru, rv, rfl, hu, hv⟩
    exact hu.append_cons hd hv

end

/-- A fixed text that neither contains the pattern nor can be part of an occurrence of it. -/
structure Fence (pat c : List α) : Prop where
  ne_nil : c ≠ []
  head : ∀ d ∈ c.head?, d ∉ pat
  last : ∀ d ∈ c.getLast?, d ∉ pat
  free : ¬ pat <:+: c

instance [DecidableEq α] (pat c : List α) : Decidable (Fence pat c) :=
  decidable_of_iff (c ≠ [] ∧ c.head?.all (fun d => decide (d ∉ pat)) ∧
    c.getLast?.all (fun d => decide (d ∉ pat)) ∧ ¬ pat <:+: c) (by
      simp only [Option.all_eq_true, decide_eq_true_eq]
      exact ⟨fun ⟨h1, h2, h3, h4⟩ => ⟨h1, h2, h3, h4⟩, fun ⟨h1, h2, h3, h4⟩ => ⟨h1, h2, h3, h4⟩⟩)

namespace Fence
variable {pat rep c : List α}

/-- A fence is one separator, or a text between two. -/
theorem shape (h : Fence pat c) : (∃ d, d ∉ pat ∧ c = [d]) ∨
    ∃ d m d', d ∉ pat ∧ d' ∉ pat ∧ ¬ pat <:+: m ∧ c = d :: (m ++ [d']) := by
  obtain ⟨d, c', rfl⟩ := List.exists_cons_of_ne_nil h.ne_nil
  have hd : d ∉ pat := h.head d rfl
  rcases List.eq_nil_or_concat c' with rfl | ⟨m, d', rfl⟩
  · exact .inl ⟨d, hd, rfl⟩
  · rw [List.concat_eq_append] at h ⊢
    have hd' : d' ∉ pat := h.last d' (by rw [← List.cons_append]; exact List.getLast?_concat)
    exact .inr ⟨d, m, d', hd, hd', fun hm => h.free (hm.trans ⟨[d], [d'], by simp⟩), rfl⟩

theorem infix_iff (h : Fence pat c) (u v : List α) : pat <:+: u ++ c ++ v ↔ pat <:+: u ∨ pat <:+: v := by
  rcases h.shape with ⟨d, hd, rfl⟩ | ⟨d, m, d', hd, hd', hm, rfl⟩
  · rw [List.append_assoc]; exact infix_append_cons hd u v
  · rw [show u ++ d :: (m ++ [d']) ++ v = u ++ d :: (m ++ d' :: v) by simp, infix_append_cons hd,
      infix_append_cons hd']
    simp only [hm, false_or]

theorem rewrites_iff (h : Fence pat c) {u v r : List α} : Rewrites pat rep (u ++ c ++ v) r ↔
    ∃ ru rv, r = ru ++ c ++ rv ∧ Rewrites pat rep u ru ∧ Rewrites pat rep v rv := by
  rcases h.shape with ⟨d, hd, rfl⟩ | ⟨d, m, d', hd, hd', hm, rfl⟩
  · rw [List.append_assoc, List.singleton_append, rewrites_append_cons hd]
    simp
  · rw [show u ++ d :: (m ++ [d']) ++ v = u ++ d :: (m ++ d' :: v) by simp, rewrites_append_cons hd]
    constructor
    · rintro ⟨ru, _, rfl, hu, hmv⟩
      obtain ⟨rm, rv, rfl, hrm, hv⟩ := (rewrites_append_cons hd').1 hmv
      obtain rfl := hrm.eq_of_free hm
      exact ⟨ru, rv, by simp, hu, hv⟩
    · rintro ⟨ru, rv, rfl, hu, hv⟩
      exact ⟨ru, m ++ d' :: rv, by simp, hu, (Rewrites.done hm).append_cons hd' hv⟩

end Fence

/-- Replacing a fence by a fence neither makes nor breaks an occurrence of another pattern. -/
theorem Rewrites.infix_iff {pat rep q s r : List α} (h : Rewrites pat rep s r) (hpat : Fence q pat)
    (hrep : Fence q rep) : q <:+: r ↔ q <:+: s := by
  induction h with
  | done => rfl
  | @step x y r _ _ ih => rw [ih, hrep.infix_iff, hpat.infix_iff]

theorem Rewrites.not_infix_of_fence {pat rep q s r : List α} (h : Rewrites pat rep s r) (hrep : Fence q rep)
    (hs : ¬ q <:+: s) : ¬ q <:+: r := by
  induction h with
  | done => exact hs
  | @step x y r _ _ ih =>
    refine ih fun hin => hs ?_
    rcases (hrep.infix_iff x y).1 hin with hx | hy
    · exact hx.trans ⟨[], pat ++ y, by simp⟩
    · exact hy.trans ⟨x ++ pat, [], by simp⟩

/-! ### Texts with holes -/

/-- Texts for the holes `hs`, and after each of them the fixed text of `fs`. -/
def holes (fs hs : List (List α)) : List α := (List.zipWith (· ++ ·) hs fs).flatten

theorem infix_holes_of_mem {fs hs : List (List α)} (hlen : hs.length = fs.length) {h : List α} (hh : h ∈ hs) :
    h <:+: holes fs hs := by
  obtain ⟨i, hi, rfl⟩ := List.mem_iff_getElem.1 hh
  have hmem : hs[i] ++ fs[i] ∈ List.zipWith (· ++ ·) hs fs :=
    List.mem_iff_getElem.2 ⟨i, by rw [List.length_zipWith]; omega, List.getElem_zipWith⟩
  exact (List.prefix_append _ _).isInfix.trans (List.infix_of_mem_flatten hmem)

/-- A fixed text before the holes. -/
def weave (c : List α) (fs hs : List (List α)) : List α := c ++ holes fs hs

section
variable {pat rep : List α} {fs hs : List (List α)} (hne : pat ≠ []) (hfs : ∀ f ∈ fs, Fence pat f)
  (hlen : hs.length = fs.length)
include hne hfs hlen

theorem infix_holes : pat <:+: holes fs hs ↔ ∃ h ∈ hs, pat <:+: h := by
  induction hs generalizing fs with
  | nil => simp [holes, hne]
  | cons h hs ih =>
    obtain ⟨f, fs, rfl⟩ := List.exists_of_length_succ fs hlen.symm
    have ih := ih (fun f hf => hfs f (List.mem_cons_of_mem _ hf)) (Nat.succ.inj hlen)
    rw [holes] at ih ⊢
    rw [List.zipWith_cons_cons, List.flatten_cons, (hfs f List.mem_cons_self).infix_iff, ih]
    simp

/-- Between fences each hole is rewritten on its own. -/
theorem rewrites_holes {r : List α} :
    Rewrites pat rep (holes fs hs) r ↔ ∃ hs', List.Forall₂ (Rewrites pat rep) hs hs' ∧ r = holes fs hs' := by
  induction hs generalizing fs r with
  | nil =>
    have hnil : ¬ pat <:+: ([] : List α) := by simpa using hne
    constructor
    · intro h
      exact ⟨[], .nil, h.eq_of_free hnil⟩
    · rintro ⟨_, hhs, rfl⟩
      cases hhs
      exact .done hnil
  | cons h hs ih =>
    obtain ⟨f, fs, rfl⟩ := List.exists_of_length_succ fs hlen.symm
    have hf := hfs f List.mem_cons_self
    have ih := @ih fs (fun f hf => hfs f (List.mem_cons_of_mem _ hf)) (Nat.succ.inj hlen)
    rw [holes, List.zipWith_cons_cons, List.flatten_cons, hf.rewrites_iff]
    constructor
    · rintro ⟨ru, rv, rfl, hu, hv⟩
      obtain ⟨hs', hhs, rfl⟩ := ih.1 hv
      exact ⟨ru :: hs', .cons hu hhs, rfl⟩
    · rintro ⟨_, hhs, rfl⟩
      cases hhs with
      | @cons _ h' _ hs' hh hhs => exact ⟨h', holes fs hs', rfl, hh, ih.2 ⟨hs', hhs, rfl⟩⟩

variable {c : List α} (hc : Fence pat c)
include hc

theorem infix_weave : pat <:+: weave c fs hs ↔ ∃ h ∈ hs, pat <:+: h := by
  have h := hc.infix_iff [] (holes fs hs)
  rw [List.nil_append, infix_holes hne hfs hlen] at h
  rw [weave, h]
  simp [hne]

theorem rewrites_weave {r : List α} : Rewrites pat rep (weave c fs hs) r ↔
    ∃ hs', List.Forall₂ (Rewrites pat rep) hs hs' ∧ r = weave c fs hs' := by
  have hnil : ¬ pat <:+: ([] : List α) := by simpa using hne
  have h : Rewrites pat rep ([] ++ c ++ holes fs hs) r ↔ _ := hc.rewrites_iff
  rw [List.nil_append] at h
  rw [weave, h]
  constructor
  · rintro ⟨ru, rv, rfl, hu, hv⟩
    obtain rfl := hu.eq_of_free hnil
    obtain ⟨hs', hhs, rfl⟩ := (rewrites_holes hne hfs hlen).1 hv
    exact ⟨hs', hhs, rfl⟩
  · rintro ⟨hs', hhs, rfl⟩
    exact ⟨[], holes fs hs', rfl, .done hnil, (rewrites_holes hne hfs hlen).2 ⟨hs', hhs, rfl⟩⟩

end

/-- What a woven text ends with is the end of its last fixed text. -/
theorem getLast?_weave {fs hs : List (List α)} (hne : ∀ f ∈ fs, f ≠ []) (hlen : hs.length = fs.length)
    (c : List α) : (weave c fs hs).getLast? = (c :: fs).flatten.getLast? := by
  induction hs generalizing fs c with
  | nil =>
    rw [List.length_eq_zero_iff.1 hlen.symm]
    simp [weave, holes]
  | cons h hs ih =>
    obtain ⟨f, fs, rfl⟩ := List.exists_of_length_succ fs hlen.symm
    have hf : f ++ fs.flatten ≠ [] := by simp [hne f List.mem_cons_self]
    have ih := ih (fun f hf => hne f (List.mem_cons_of_mem _ hf)) (Nat.succ.inj hlen) (c ++ (h ++ f))
    rw [weave, holes, List.append_assoc] at ih
    rw [weave, holes, List.zipWith_cons_cons, List.flatten_cons, ih, List.flatten_cons, List.flatten_cons,
      List.flatten_cons, List.append_assoc, List.append_assoc, ← List.append_assoc c h, 
      List.getLast?_append_of_ne_nil _ hf, List.getLast?_append_of_ne_nil _ hf]

/-! ### Templates -/

section
variable [DecidableEq α]

/-- Cuts a text at the first occurrence of each mark, one after the other. -/
def cut : List (List α) → List α → List (List α)
  | [], t => [t]
  | mark :: marks, t =>
    match find mark t with
    | none => [t]
    | some i => t.take i :: cut marks (t.drop (i + mark.length))

/-- The text with `hs` in place of its marks. -/
def fill (t : List α) (marks hs : List (List α)) : List α :=
  weave ((cut marks t).headD []) (cut marks t).tail hs

/-- A text with marks, and patterns from which all between the marks fences. -/
structure Template (t : List α) (marks pats : List (List α)) : Prop where
  length : (cut marks t).length = marks.length + 1
  fill_marks : fill t marks marks = t
  fence : ∀ pat ∈ pats, ∀ f ∈ cut marks t, Fence pat f

instance (t : List α) (marks pats : List (List α)) : Decidable (Template t marks pats) :=
  decidable_of_iff ((cut marks t).length = marks.length + 1 ∧ fill t marks marks = t ∧
    ∀ pat ∈ pats, ∀ f ∈ cut marks t, Fence pat f)
    ⟨fun ⟨h1, h2, h3⟩ => ⟨h1, h2, h3⟩, fun ⟨h1, h2, h3⟩ => ⟨h1, h2, h3⟩⟩

namespace Template
variable {t : List α} {marks pats hs : List (List α)} (ht : Template t marks pats) {pat rep : List α}
  (hpat : pat ∈ pats) (hlen : hs.length = marks.length)
include ht hpat hlen

theorem infix_fill : pat <:+: fill t marks hs ↔ ∃ h ∈ hs, pat <:+: h := by
  obtain ⟨f, fs, hfs⟩ := List.exists_of_length_succ _ ht.length
  have hfence := ht.fence pat hpat
  have hlen' := ht.length
  rw [hfs] at hfence hlen'
  have hf := hfence f List.mem_cons_self
  have hne : pat ≠ [] := by rintro rfl; exact hf.free List.nil_infix
  rw [fill, hfs]
  exact infix_weave hne (fun f hf => hfence f (List.mem_cons_of_mem _ hf))
    (hlen.trans (Nat.succ.inj hlen').symm) hf

omit hpat in
theorem infix_of_mem {h : List α} (hh : h ∈ hs) : h <:+: fill t marks hs := by
  obtain ⟨f, fs, hfs⟩ := List.exists_of_length_succ _ ht.length
  have hlen' := ht.length
  rw [hfs] at hlen'
  rw [fill, hfs]
  exact (infix_holes_of_mem (hlen.trans (Nat.succ.inj hlen').symm) hh).trans (List.suffix_append _ _).isInfix

theorem rewrites_fill {r : List α} : Rewrites pat rep (fill t marks hs) r ↔
    ∃ hs', List.Forall₂ (Rewrites pat rep) hs hs' ∧ r = fill t marks hs' := by
  obtain ⟨f, fs, hfs⟩ := List.exists_of_length_succ _ ht.length
  have hfence := ht.fence pat hpat
  have hlen' := ht.length
  rw [hfs] at hfence hlen'
  have hf := hfence f List.mem_cons_self
  have hne : pat ≠ [] := by rintro rfl; exact hf.free List.nil_infix
  rw [fill, hfs]
  simp only [fill, hfs]
  exact rewrites_weave hne (fun f hf => hfence f (List.mem_cons_of_mem _ hf))
    (hlen.trans (Nat.succ.inj hlen').symm) hf

omit hlen in
theorem head?_fill : (fill t marks hs).head? = t.head? := by
  have hsame : ∀ hs, (fill t marks hs).head? = ((cut marks t).headD []).head? := by
    intro hs
    obtain ⟨f, fs, hfs⟩ := List.exists_of_length_succ _ ht.length
    have hne := (ht.fence pat hpat f (by rw [hfs]; exact List.mem_cons_self)).ne_nil
    rw [fill, hfs, List.headD_cons, weave, List.head?_append_of_ne_nil _ hne]
  rw [hsame, ← hsame marks, ht.fill_marks]

theorem getLast?_fill : (fill t marks hs).getLast? = t.getLast? := by
  have hsame : ∀ hs : List (List α), hs.length = marks.length →
      (fill t marks hs).getLast? = (cut marks t).flatten.getLast? := by
    intro hs hlen
    obtain ⟨f, fs, hfs⟩ := List.exists_of_length_succ _ ht.length
    have hlen' := ht.length
    have hne := fun f hf => (ht.fence pat hpat f hf).ne_nil
    rw [hfs] at hlen' hne
    rw [fill, hfs]
    exact getLast?_weave (fun f hf => hne f (List.mem_cons_of_mem _ hf))
      (hlen.trans (Nat.succ.inj hlen').symm) f
  rw [hsame hs hlen, ← hsame marks rfl, ht.fill_marks]

end Template

end

theorem infix_flatten {pat : List α} (hne : pat ≠ []) {d : α} (hd : d ∉ pat) {ws : List (List α)}
    (hws : ∀ w ∈ ws, w.head? = some d) : pat <:+: ws.flatten ↔ ∃ w ∈ ws, pat <:+: w := by
  induction ws with
  | nil => simp [hne]
  | cons w ws ih =>
    have ih := ih fun w hw => hws w (List.mem_cons_of_mem _ hw)
    have hsplit : pat <:+: w ++ ws.flatten ↔ pat <:+: w ∨ pat <:+: ws.flatten := by
      cases ws with
      | nil => simp [hne]
      | cons w' ws =>
        obtain ⟨w'', hw'⟩ := List.head?_eq_some_iff.1 (hws w' (by simp))
        have hcons : pat <:+: d :: (w'' ++ ws.flatten) ↔ pat <:+: w'' ++ ws.flatten := by
          have h := infix_append_cons hd [] (w'' ++ ws.flatten)
          rw [List.nil_append] at h
          simpa [hne] using h
        rw [hw', List.flatten_cons, List.cons_append, infix_append_cons hd, hcons]
    rw [List.flatten_cons, hsplit, ih]
    simp

theorem rewrites_flatten {pat rep : List α} (hne : pat ≠ []) {d : α} (hd : d ∉ pat) {ws : List (List α)}
    (hws : ∀ w ∈ ws, w.head? = some d) {r : List α} : Rewrites pat rep ws.flatten r ↔
    ∃ rs, List.Forall₂ (Rewrites pat rep) ws rs ∧ r = rs.flatten := by
  have hnil : ¬ pat <:+: ([] : List α) := by simpa using hne
  -- a text before them, up to the next separator
  have hjoin : ∀ x r, Rewrites pat rep (x ++ ws.flatten) r ↔
      ∃ rx rs, Rewrites pat rep x rx ∧ List.Forall₂ (Rewrites pat rep) ws rs ∧ r = rx ++ rs.flatten := by
    induction ws with
    | nil => intro x r; simp
    | cons w ws ih =>
      intro x r
      obtain ⟨w, rfl⟩ := List.head?_eq_some_iff.1 (hws w List.mem_cons_self)
      have ih := ih fun w hw => hws w (List.mem_cons_of_mem _ hw)
      have hcons : ∀ r, Rewrites pat rep (d :: w) r ↔ ∃ rw, r = d :: rw ∧ Rewrites pat rep w rw := by
        intro r
        have h : Rewrites pat rep ([] ++ d :: w) r ↔ _ := rewrites_append_cons hd
        simpa [rewrites_iff_of_free hnil] using h
      rw [List.flatten_cons, List.cons_append, rewrites_append_cons hd]
      constructor
      · rintro ⟨rx, rv, rfl, hx, hv⟩
        obtain ⟨rw, rs, hw, hrs, rfl⟩ := (ih w rv).1 hv
        exact ⟨rx, (d :: rw) :: rs, hx, .cons ((hcons _).2 ⟨rw, rfl, hw⟩) hrs, by simp⟩
      · rintro ⟨rx, _, hx, hall, rfl⟩
        cases hall with
        | @cons _ rd _ rs hd hrs =>
          obtain ⟨rw, rfl, hw⟩ := (hcons rd).1 hd
          exact ⟨rx, rw ++ rs.flatten, by simp, hx, (ih w _).2 ⟨rw, rs, hw, hrs, rfl⟩⟩
  have h := hjoin [] r
  simpa [rewrites_iff_of_free hnil] using h

end CWorkspace
