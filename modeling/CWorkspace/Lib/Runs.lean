import Mathlib.Algebra.GroupWithZero.Nat
import Mathlib.Data.List.Induction
import Mathlib.Data.List.Basic
import Mathlib.Data.List.Chain
import Mathlib.Data.List.SplitBy
import Mathlib.Tactic.SplitIfs

/-!
# Run-length segmentation

`runs key l` cuts a list into its maximal runs of equal keys, keeping the length and the last element
of each; `ends key l` are these last elements. `runs_concat` is the left-to-right form, in which a
scanner builds the runs, and `ends_map_range'` reads the ends off the places where the key changes.
-/

namespace CWorkspace

structure Run (α : Type*) where
  count : ℕ
  last : α

section
variable {α κ : Type*} [DecidableEq κ] (key : α → κ)

def consRun (a : α) : List (Run α) → List (Run α)
  | [] => [⟨1, a⟩]
  | r :: rs => if key r.last = key a then ⟨r.count + 1, r.last⟩ :: rs else ⟨1, a⟩ :: r :: rs

def snocRun (a : α) : List (Run α) → List (Run α)
  | [] => [⟨1, a⟩]
  | [r] => if key r.last = key a then [⟨r.count + 1, a⟩] else [r, ⟨1, a⟩]
  | r :: r' :: rs => r :: snocRun a (r' :: rs)

def runs (l : List α) : List (Run α) := l.foldr (consRun key) []

def ends (l : List α) : List α := (runs key l).map Run.last

@[simp] theorem runs_cons (a : α) (l : List α) : runs key (a :: l) = consRun key a (runs key l) := rfl

theorem consRun_snocRun (a b : α) (rs : List (Run α)) :
    consRun key b (snocRun key a rs) = snocRun key a (consRun key b rs) := by
  match rs with
  | [] => simp only [snocRun, consRun]; split_ifs <;> simp_all
  | [r] =>
    simp only [snocRun, consRun]
    split_ifs with h₁ h₂ h₂ <;> simp_all [snocRun]
  | r :: r' :: rs =>
    simp only [snocRun, consRun]
    split_ifs <;> rfl

theorem runs_concat' (l : List α) (a : α) : runs key (l ++ [a]) = snocRun key a (runs key l) := by
  induction l with
  | nil => rfl
  | cons b l ih => rw [List.cons_append, runs_cons, ih, consRun_snocRun, runs_cons]

theorem snocRun_concat (a : α) (rs : List (Run α)) (r : Run α) : snocRun key a (rs ++ [r]) =
    if key r.last = key a then rs ++ [⟨r.count + 1, a⟩] else rs ++ [r, ⟨1, a⟩] := by
  induction rs with
  | nil => rfl
  | cons r₀ rs ih =>
    cases rs with
    | nil => simp only [List.nil_append, List.cons_append, snocRun]; split_ifs <;> rfl
    | cons r₁ rs =>
      rw [List.cons_append, List.cons_append, snocRun, ← List.cons_append, ih]
      split_ifs <;> rfl

theorem runs_concat {l : List α} {rs : List (Run α)} {r : Run α} (h : runs key l = rs ++ [r]) (a : α) :
    runs key (l ++ [a]) =
      if key r.last = key a then rs ++ [⟨r.count + 1, a⟩] else rs ++ [r, ⟨1, a⟩] := by
  rw [runs_concat', h, snocRun_concat]

theorem runs_head (b : α) (l : List α) : ∃ r rs, runs key (b :: l) = r :: rs ∧ key r.last = key b := by
  rw [runs_cons]
  cases runs key l with
  | nil => exact ⟨_, _, rfl, rfl⟩
  | cons r rs =>
    rw [consRun]
    split_ifs with h
    exacts [⟨_, _, rfl, h⟩, ⟨_, _, rfl, rfl⟩]

theorem ends_cons_cons (a b : α) (l : List α) : ends key (a :: b :: l) =
    if key a = key b then ends key (b :: l) else a :: ends key (b :: l) := by
  obtain ⟨r, rs, hr, hkey⟩ := runs_head key b l
  rw [ends, runs_cons, hr, consRun, hkey, ends, hr]
  by_cases h : key b = key a
  · rw [if_pos h, if_pos h.symm]; rfl
  · rw [if_neg h, if_neg (Ne.symm h)]; rfl

@[simp] theorem ends_nil : ends key ([] : List α) = [] := rfl

@[simp] theorem ends_singleton (a : α) : ends key [a] = [a] := rfl

theorem ends_sublist : ∀ l : List α, (ends key l).Sublist l
  | [] => List.Sublist.slnil
  | [_] => List.Sublist.refl _
  | a :: b :: l => by
    rw [ends_cons_cons]
    split_ifs
    · exact (ends_sublist (b :: l)).cons a
    · exact (ends_sublist (b :: l)).cons_cons a

theorem key_head_ends : ∀ l : List α, (ends key l).head?.map key = l.head?.map key
  | [] => rfl
  | [_] => rfl
  | a :: b :: l => by
    rw [ends_cons_cons]
    split_ifs with h
    · rw [key_head_ends (b :: l)]; simp [h]
    · rfl

theorem getLast?_ends : ∀ l : List α, (ends key l).getLast? = l.getLast?
  | [] => rfl
  | [_] => rfl
  | a :: b :: l => by
    have ih := getLast?_ends (b :: l)
    rw [ends_cons_cons]
    split_ifs
    · rw [ih]; simp
    · cases he : ends key (b :: l) with
      | nil => rw [he] at ih; exact absurd ih.symm (by simp)
      | cons e es => rw [he] at ih; rw [List.getLast?_cons_cons, ih]; simp

theorem isChain_ends : ∀ l : List α, (ends key l).IsChain (key · ≠ key ·)
  | [] => List.IsChain.nil
  | [_] => List.IsChain.singleton _
  | a :: b :: l => by
    have ih := isChain_ends (b :: l)
    have hhead := key_head_ends key (b :: l)
    rw [ends_cons_cons]
    split_ifs with h
    · exact ih
    · cases he : ends key (b :: l) with
      | nil => exact List.IsChain.singleton _
      | cons e es =>
        rw [he] at ih hhead
        refine List.IsChain.cons_cons ?_ ih
        simp only [List.head?_cons, Option.map_some, Option.some.injEq] at hhead
        rw [hhead]; exact h

/-- The ends of a row given by position: the places before a change of key, and the last one. -/
theorem ends_map_range' (f : ℕ → α) (s n : ℕ) : ends key ((List.range' s n).map f) =
    ((List.range' s n).filter fun x => x + 1 = s + n ∨ key (f x) ≠ key (f (x + 1))).map f := by
  induction n generalizing s with
  | zero => rfl
  | succ n ih =>
    cases n with
    | zero => simp [List.range'_succ]
    | succ n =>
      have hstep := ih (s + 1)
      have hfilter : (List.range' (s + 1) (n + 1)).filter
            (fun x => x + 1 = s + 1 + (n + 1) ∨ key (f x) ≠ key (f (x + 1))) =
          (List.range' (s + 1) (n + 1)).filter
            (fun x => x + 1 = s + (n + 1 + 1) ∨ key (f x) ≠ key (f (x + 1))) :=
        List.filter_congr fun x _ => by
          rw [show s + 1 + (n + 1) = s + (n + 1 + 1) by omega]
      rw [hfilter] at hstep
      rw [List.range'_succ, List.map_cons, List.range'_succ, List.map_cons, ends_cons_cons,
        ← List.map_cons, ← List.range'_succ, hstep, List.filter_cons]
      by_cases h : key (f s) = key (f (s + 1))
      · simp [h]
      · simp [h]

end

/-! ### Counts, and Mathlib's maximal runs -/

section
variable {α κ : Type*} [DecidableEq κ] (key : α → κ)

theorem expand_runs (l : List α) :
    ((runs key l).flatMap fun r => List.replicate r.count (key r.last)) = l.map key := by
  induction l with
  | nil => rfl
  | cons a l ih =>
    rw [List.map_cons, ← ih, runs_cons]
    cases runs key l with
    | nil => rfl
    | cons r rs =>
      rw [consRun]
      split_ifs with h
      · rw [List.flatMap_cons, List.flatMap_cons, List.replicate_succ, h, List.cons_append]
      · rfl

theorem sum_count_runs (l : List α) : ((runs key l).map Run.count).sum = l.length := by
  have h := congrArg List.length (expand_runs key l)
  rwa [List.length_map, List.length_flatMap, List.map_congr_left fun r _ => List.length_replicate] at h

theorem splitBy_cons_of_rel {r : α → α → Bool} {a b : α} {l : List α} (hab : r a b = true) {g : List α}
    {gs : List (List α)} (h : (b :: l).splitBy r = g :: gs) : (a :: b :: l).splitBy r = (a :: g) :: gs := by
  obtain ⟨hflat, hnil, hchain, hnext⟩ := List.splitBy_eq_iff.1 h
  cases g with
  | nil => exact absurd List.mem_cons_self hnil
  | cons b' g =>
    obtain rfl : b = b' := by simpa using congrArg List.head? hflat
    refine List.splitBy_eq_iff.2 ⟨by rw [hflat]; rfl, by simpa using hnil, fun m hm => ?_, ?_⟩
    · rcases List.mem_cons.1 hm with rfl | hm
      · exact List.IsChain.cons_cons hab (hchain _ List.mem_cons_self)
      · exact hchain m (List.mem_cons_of_mem _ hm)
    · rw [List.isChain_cons] at hnext ⊢
      refine ⟨fun m hm => ?_, hnext.2⟩
      obtain ⟨ha, hb, hr⟩ := hnext.1 m hm
      exact ⟨List.cons_ne_nil _ _, hb, by rwa [List.getLast_cons ha]⟩

/-- The runs are Mathlib's maximal runs of equal keys, by their lengths and last elements. -/
theorem runs_eq_splitBy : ∀ l : List α, (runs key l).map (fun r => (r.count, some r.last)) =
    (l.splitBy fun a b => key a == key b).map fun g => (g.length, g.getLast?)
  | [] => rfl
  | [_] => rfl
  | a :: b :: l => by
    have ih := runs_eq_splitBy (b :: l)
    obtain ⟨r, rs, hr, hkey⟩ := runs_head key b l
    rw [runs_cons, hr, consRun, hkey]
    rw [hr, List.map_cons] at ih
    by_cases h : key b = key a
    · cases hs : (b :: l).splitBy fun a b => key a == key b with
      | nil => rw [hs] at ih; exact absurd ih (List.cons_ne_nil _ _)
      | cons g gs =>
        have hg : g ≠ [] := List.ne_nil_of_mem_splitBy (hs ▸ List.mem_cons_self)
        rw [hs, List.map_cons, List.cons.injEq, Prod.mk.injEq] at ih
        obtain ⟨⟨hlen, hlast⟩, htail⟩ := ih
        rw [if_pos h, splitBy_cons_of_rel (by simpa using h.symm) hs, List.map_cons, List.map_cons, htail,
          List.length_cons, ← hlen, List.getLast?_cons_of_ne_nil hg, hlast]
    · have hne : ∀ x ∈ [a].getLast?, (key x == key b) = false := by
        rintro x ⟨⟩
        exact beq_eq_false_iff_ne.2 (Ne.symm h)
      rw [if_neg h, show a :: b :: l = [a] ++ b :: l from rfl, List.splitBy_append_cons l hne,
        List.map_append, ← ih]
      rfl

theorem key_eq_of_mem_splitBy {l g : List α} (hg : g ∈ l.splitBy fun a b => key a == key b) {a b : α}
    (ha : a ∈ g) (hb : g.getLast? = some b) : key a = key b := by
  have hchain : g.IsChain fun a b => key a = key b :=
    (List.isChain_of_mem_splitBy hg).imp fun a b h => by simpa using h
  have : IsTrans α fun a b => key a = key b := ⟨fun _ _ _ => Eq.trans⟩
  obtain ⟨g', rfl⟩ := List.getLast?_eq_some_iff.1 hb
  rcases List.mem_append.1 ha with ha | ha
  · exact (List.pairwise_append.1 (List.isChain_iff_pairwise.1 hchain)).2.2 a ha b (List.mem_singleton_self b)
  · rw [List.mem_singleton.1 ha]

theorem count_pos_of_mem_runs {l : List α} {r : Run α} (hr : r ∈ runs key l) : 0 < r.count := by
  have h : (r.count, some r.last) ∈ (runs key l).map fun r => (r.count, some r.last) :=
    List.mem_map_of_mem hr
  rw [runs_eq_splitBy] at h
  obtain ⟨g, hg, heq⟩ := List.mem_map.1 h
  rw [← (Prod.mk.inj heq).1]
  exact List.length_pos_iff.2 (List.ne_nil_of_mem_splitBy hg)

end

section
variable {α : Type*}

/-- The first with the second, the third with the fourth, …; an odd last one is left out. -/
def pairs : List α → List (α × α)
  | a :: b :: l => (a, b) :: pairs l
  | _ => []

theorem length_pairs : ∀ l : List α, (pairs l).length = l.length / 2
  | [] => by simp [pairs]
  | [_] => by simp [pairs]
  | a :: b :: l => by rw [pairs, List.length_cons, length_pairs l, List.length_cons, List.length_cons]; omega

theorem pairs_fst_sublist : ∀ l : List α, ((pairs l).map Prod.fst).Sublist l
  | [] => List.Sublist.slnil
  | [a] => List.nil_sublist [a]
  | a :: b :: l => ((pairs_fst_sublist l).cons b).cons_cons a

theorem getElem?_pairs : ∀ (l : List α) (j : ℕ), (pairs l)[j]? =
    (l[2 * j]?).bind fun a => (l[2 * j + 1]?).map fun b => (a, b)
  | [], j => by simp [pairs]
  | [a], j => by cases j <;> simp [pairs]
  | a :: b :: l, 0 => rfl
  | a :: b :: l, j + 1 => by
    rw [pairs, List.getElem?_cons_succ, getElem?_pairs l j, Nat.mul_succ]
    rfl

theorem pairs_flatMap_append {β : Type*} (p q : β → α) (l : List β) {rest : List α} (h : rest.length ≤ 1) :
    pairs (l.flatMap (fun k => [p k, q k]) ++ rest) = l.map fun k => (p k, q k) := by
  induction l with
  | nil =>
    match rest, h with
    | [], _ => rfl
    | [_], _ => rfl
  | cons k l ih => simpa [pairs] using ih

/-- In a list that alternates between two kinds, the elements of one kind: half of them, and one more
when the list begins and ends with that kind. -/
theorem countP_of_alternating (c : α → Bool) : ∀ l : List α, l.IsChain (c · ≠ c ·) →
    l.countP c = l.length / 2 + (l.head?.any c && l.getLast?.any c).toNat
  | [], _ => by simp
  | [a], _ => by by_cases h : c a <;> simp [h]
  | [a, b], h => by
    have hab : c a ≠ c b := by simpa using h
    cases ha : c a <;> cases hb : c b <;> simp_all
  | a :: b :: d :: l, h => by
    obtain ⟨hab, h⟩ := List.isChain_cons_cons.1 h
    obtain ⟨hbd, h⟩ := List.isChain_cons_cons.1 h
    have ih := countP_of_alternating c (d :: l) h
    have hda : c d = c a := by cases ha : c a <;> cases hb : c b <;> cases hd : c d <;> simp_all
    have hone : [a, b].countP c = 1 := by
      cases ha : c a <;> cases hb : c b <;> simp_all
    have hlast : (a :: b :: d :: l).getLast? = (d :: l).getLast? := by simp
    rw [show a :: b :: d :: l = [a, b] ++ (d :: l) from rfl, List.countP_append, hone, ih,
      show [a, b] ++ (d :: l) = a :: b :: d :: l from rfl, hlast]
    simp only [List.head?_cons, Option.any_some, hda, List.length_cons]
    omega

end

end CWorkspace
