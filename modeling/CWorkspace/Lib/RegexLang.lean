import CWorkspace.Lib.Regex
import Mathlib.Algebra.BigOperators.Group.List.Basic
import Mathlib.Computability.Language

/-!
# The language of a pattern

The matcher tries exactly the texts of the pattern's language (`ways_iff`), so that a pattern without anchors
matches a whole text exactly if the text is in its language (`fullMatch_isSome_iff`), however it is written.
-/

namespace CWorkspace.Regex

def anchorFree : Regex → Bool
  | empty | char _ | any => true
  | bol => false
  | seq r q => r.anchorFree && q.anchorFree
  | group _ r | opt r | rep _ _ r => r.anchorFree

/-- Anchors aside; a round of a repetition consumes something. -/
def language : Regex → Language Char
  | empty | bol => 1
  | char c => {[c]}
  | any => {w | ∃ c, isAny c ∧ w = [c]}
  | seq r q => r.language * q.language
  | group _ r => r.language
  | opt r => r.language + 1
  | rep _ min r => {w | ∃ ws : List (List Char), w = ws.flatten ∧ min ≤ ws.length ∧
      ∀ x ∈ ws, x ∈ r.language ∧ x ≠ []}

theorem mem_language_rep {lazy : Bool} {min : ℕ} {r : Regex} {w : List Char} :
    w ∈ (rep lazy min r).language ↔ ∃ ws : List (List Char), w = ws.flatten ∧ min ≤ ws.length ∧
      ∀ x ∈ ws, x ∈ r.language ∧ x ≠ [] := Iff.rfl

/-! ### The matcher and the language -/

theorem exists_one_iff {p : Char → Bool} {s : MatchState} {u : List Char} :
    (∃ m ∈ one p s, m.rest = u) ↔ ∃ c, p c ∧ s.rest = c :: u := by
  constructor
  · rintro ⟨m, hm, rfl⟩
    obtain ⟨c, hrest, hc, -⟩ := mem_one hm
    exact ⟨c, hc, hrest⟩
  · rintro ⟨c, hc, hrest⟩
    refine ⟨⟨false, u, s.caps⟩, ?_, rfl⟩
    rw [one, hrest]
    simp [hc]

theorem mem_rounds_succ {round : MatchState → List MatchState} {lazy : Bool} {fuel min : ℕ} {s m : MatchState} :
    m ∈ rounds round lazy (fuel + 1) min s ↔
      (∃ s' ∈ round s, s'.rest.length < s.rest.length ∧ m ∈ rounds round lazy fuel (min - 1) s') ∨
      min = 0 ∧ m = s := by
  rw [rounds]
  split_ifs with hmin hlazy
  · simp [List.mem_flatMap, List.mem_filter, and_assoc, hmin]
  · simp [List.mem_flatMap, List.mem_filter, and_assoc, not_not.1 hmin, or_comm]
  · simp [List.mem_flatMap, List.mem_filter, and_assoc, not_not.1 hmin]

theorem exists_rounds_iff {round : MatchState → List MatchState} {L : Language Char}
    (hround : ∀ s u, (∃ m ∈ round s, m.rest = u) ↔ ∃ w ∈ L, s.rest = w ++ u) {lazy : Bool} {fuel min : ℕ}
    {s : MatchState} (hfuel : s.rest.length ≤ fuel) {u : List Char} :
    (∃ m ∈ rounds round lazy fuel min s, m.rest = u) ↔ ∃ ws : List (List Char), s.rest = ws.flatten ++ u ∧
      min ≤ ws.length ∧ ∀ x ∈ ws, x ∈ L ∧ x ≠ [] := by
  induction fuel generalizing min s with
  | zero =>
    have hnil : s.rest = [] := List.length_eq_zero_iff.1 (Nat.le_zero.1 hfuel)
    rw [rounds]
    constructor
    · rintro ⟨m, hm, rfl⟩
      split_ifs at hm with hmin
      · rw [List.mem_singleton.1 hm]
        exact ⟨[], rfl, Nat.le_of_eq hmin, fun x hx => absurd hx List.not_mem_nil⟩
      · exact absurd hm List.not_mem_nil
    · rintro ⟨ws, hrest, hmin, hws⟩
      rw [hnil] at hrest
      obtain ⟨hflat, rfl⟩ := List.append_eq_nil_iff.1 hrest.symm
      have hempty : ws = [] := List.eq_nil_iff_forall_not_mem.2 fun x hx =>
        (hws x hx).2 (List.flatten_eq_nil_iff.1 hflat x hx)
      rw [hempty] at hmin
      exact ⟨s, by rw [if_pos (Nat.le_zero.1 hmin)]; exact List.mem_singleton_self s, hnil⟩
  | succ fuel ih =>
    constructor
    · rintro ⟨m, hm, rfl⟩
      rcases mem_rounds_succ.1 hm with ⟨s', hs', hlt, hm'⟩ | ⟨rfl, rfl⟩
      · obtain ⟨w, hw, hrest⟩ := (hround s s'.rest).1 ⟨s', hs', rfl⟩
        obtain ⟨ws, hrest', hmin, hws⟩ := (ih (Nat.le_of_lt_succ (hlt.trans_le hfuel))).1 ⟨m, hm', rfl⟩
        have hne : w ≠ [] := by
          rintro rfl
          rw [hrest, List.nil_append] at hlt
          exact Nat.lt_irrefl _ hlt
        refine ⟨w :: ws, ?_, by rw [List.length_cons]; omega, List.forall_mem_cons.2 ⟨⟨hw, hne⟩, hws⟩⟩
        rw [hrest, hrest', List.flatten_cons, List.append_assoc]
      · exact ⟨[], rfl, Nat.le_refl 0, fun x hx => absurd hx List.not_mem_nil⟩
    · rintro ⟨ws, hrest, hmin, hws⟩
      cases ws with
      | nil => exact ⟨s, mem_rounds_succ.2 (.inr ⟨Nat.le_zero.1 hmin, rfl⟩), hrest⟩
      | cons w ws =>
        obtain ⟨⟨hw, hne⟩, hws'⟩ := List.forall_mem_cons.1 hws
        rw [List.flatten_cons, List.append_assoc] at hrest
        obtain ⟨s', hs', hrest'⟩ := (hround s (ws.flatten ++ u)).2 ⟨w, hw, hrest⟩
        have hlt : s'.rest.length < s.rest.length := by
          rw [hrest, hrest']
          simp only [List.length_append]
          have := List.length_pos_iff.2 hne
          omega
        rw [List.length_cons] at hmin
        obtain ⟨m, hm, hmu⟩ := (ih (Nat.le_of_lt_succ (hlt.trans_le hfuel))).2
          ⟨ws, hrest', (by omega : min - 1 ≤ ws.length), hws'⟩
        exact ⟨m, mem_rounds_succ.2 (.inl ⟨s', hs', hlt, hm⟩), hmu⟩

theorem exists_ways_iff (r : Regex) (h : r.anchorFree) (s : MatchState) (u : List Char) :
    (∃ m ∈ r.ways s, m.rest = u) ↔ ∃ w ∈ r.language, s.rest = w ++ u := by
  induction r generalizing s u with
  | empty => simp [ways, language, Language.mem_one]
  | char c =>
    rw [ways, exists_one_iff]
    constructor
    · rintro ⟨d, hd, hrest⟩
      exact ⟨[d], by rw [eq_of_beq hd]; rfl, hrest⟩
    · rintro ⟨-, rfl, hrest⟩
      exact ⟨c, beq_self_eq_true c, hrest⟩
  | any =>
    rw [ways, exists_one_iff]
    constructor
    · rintro ⟨c, hc, hrest⟩
      exact ⟨[c], ⟨c, hc, rfl⟩, hrest⟩
    · rintro ⟨-, ⟨c, hc, rfl⟩, hrest⟩
      exact ⟨c, hc, hrest⟩
  | bol => cases h
  | seq r q ihr ihq =>
    obtain ⟨hr, hq⟩ := Bool.and_eq_true_iff.1 h
    constructor
    · rintro ⟨m, hm, hmu⟩
      obtain ⟨s', hs', hm⟩ := List.mem_flatMap.1 hm
      obtain ⟨v, hv, hrest'⟩ := (ihq hq s' u).1 ⟨m, hm, hmu⟩
      obtain ⟨w, hw, hrest⟩ := (ihr hr s _).1 ⟨s', hs', hrest'⟩
      exact ⟨w ++ v, Language.append_mem_mul hw hv, by rw [hrest, List.append_assoc]⟩
    · rintro ⟨-, ⟨w, hw, v, hv, rfl⟩, hrest⟩
      obtain ⟨s', hs', hrest'⟩ := (ihr hr s (v ++ u)).2 ⟨w, hw, by rw [hrest]; exact List.append_assoc _ _ _⟩
      obtain ⟨m, hm, hmu⟩ := (ihq hq s' u).2 ⟨v, hv, hrest'⟩
      exact ⟨m, List.mem_flatMap.2 ⟨s', hs', hm⟩, hmu⟩
  | group n r ih =>
    rw [language, ← ih h s u, ways]
    constructor
    · rintro ⟨m, hm, rfl⟩
      obtain ⟨m', hm', rfl⟩ := List.mem_map.1 hm
      exact ⟨m', hm', rfl⟩
    · rintro ⟨m, hm, rfl⟩
      exact ⟨_, List.mem_map_of_mem hm, rfl⟩
  | opt r ih =>
    rw [ways, language]
    simp only [List.mem_append, List.mem_singleton, or_and_right, exists_or, ih h, Language.mem_add,
      exists_eq_left, Language.mem_one]
    rfl
  | rep lazy min r ih =>
    rw [ways, exists_rounds_iff (ih h) (Nat.le_refl _)]
    constructor
    · rintro ⟨ws, hrest, hws⟩
      exact ⟨ws.flatten, ⟨ws, rfl, hws⟩, hrest⟩
    · rintro ⟨-, ⟨ws, rfl, hws⟩, hrest⟩
      exact ⟨ws, hrest, hws⟩

/-- A whole text is matched exactly if it is in the language. -/
theorem fullMatch_isSome_iff {r : Regex} (h : r.anchorFree) {t : List Char} :
    (r.fullMatch t).isSome ↔ t ∈ r.language := by
  have hways := exists_ways_iff r h ⟨true, t, []⟩ []
  simp only [List.append_nil] at hways
  rw [fullMatch, List.find?_isSome]
  simp only [List.isEmpty_iff]
  rw [hways]
  exact ⟨fun ⟨w, hw, ht⟩ => ht ▸ hw, fun ht => ⟨t, ht, rfl⟩⟩

theorem mem_language_seq {r q : Regex} {w : List Char} :
    w ∈ (seq r q).language ↔ ∃ u ∈ r.language, ∃ v ∈ q.language, u ++ v = w := Language.mem_mul

theorem mem_language_char {c : Char} {w : List Char} : w ∈ (char c).language ↔ w = [c] := Iff.rfl

theorem mem_language_opt {r : Regex} {w : List Char} : w ∈ (opt r).language ↔ w ∈ r.language ∨ w = [] := Iff.rfl

theorem mem_language_group {n : ℕ} {r : Regex} {w : List Char} :
    w ∈ (group n r).language ↔ w ∈ r.language := Iff.rfl

theorem mem_language_lits {w x : List Char} : x ∈ (lits w).language ↔ x = w := by
  induction w generalizing x with
  | nil => exact Language.mem_one x
  | cons c w ih =>
    show x ∈ ({[c]} : Language Char) * (lits w).language ↔ _
    rw [Language.mem_mul]
    constructor
    · rintro ⟨-, rfl, v, hv, rfl⟩
      rw [ih.1 hv]; rfl
    · rintro rfl
      exact ⟨[c], rfl, w, ih.2 rfl, rfl⟩

theorem mem_language_rep_one {lazy : Bool} {min : ℕ} {r : Regex} {p : Char → Prop}
    (hr : ∀ x, x ∈ r.language ↔ ∃ c, p c ∧ x = [c]) {w : List Char} :
    w ∈ (rep lazy min r).language ↔ min ≤ w.length ∧ ∀ c ∈ w, p c := by
  rw [mem_language_rep]
  constructor
  · rintro ⟨ws, rfl, hmin, hws⟩
    refine ⟨hmin.trans ?_, fun c hc => ?_⟩
    · have hlen : ∀ n ∈ ws.map List.length, 1 ≤ n := by
        intro n hn
        obtain ⟨x, hx, rfl⟩ := List.mem_map.1 hn
        exact List.length_pos_iff.2 (hws x hx).2
      rw [List.length_flatten, ← List.length_map List.length]
      exact List.length_le_sum_of_one_le _ hlen
    · obtain ⟨x, hx, hc⟩ := List.mem_flatten.1 hc
      obtain ⟨d, hd, rfl⟩ := (hr x).1 (hws x hx).1
      rwa [List.mem_singleton.1 hc]
  · rintro ⟨hmin, hw⟩
    refine ⟨w.map ([·]), (List.flatMap_singleton' w).symm, by rwa [List.length_map], fun x hx => ?_⟩
    obtain ⟨c, hc, rfl⟩ := List.mem_map.1 hx
    exact ⟨(hr _).2 ⟨c, hw c hc, rfl⟩, List.cons_ne_nil _ _⟩

theorem mem_language_rep_char {lazy : Bool} {c : Char} {w : List Char} :
    w ∈ (rep lazy 0 (char c)).language ↔ ∃ i, w = List.replicate i c := by
  have hchar : ∀ x : List Char, x ∈ (char c).language ↔ ∃ d, d = c ∧ x = [d] := fun x =>
    ⟨fun hx => ⟨c, rfl, hx⟩, fun ⟨_, hd, hx⟩ => hd ▸ hx⟩
  rw [mem_language_rep_one hchar]
  constructor
  · rintro ⟨-, h⟩
    exact ⟨_, List.eq_replicate_of_mem h⟩
  · rintro ⟨i, rfl⟩
    exact ⟨Nat.zero_le _, fun d => List.eq_of_mem_replicate⟩

theorem mem_language_rep_any {lazy : Bool} {min : ℕ} {w : List Char} :
    w ∈ (rep lazy min any).language ↔ min ≤ w.length ∧ ∀ c ∈ w, isAny c :=
  mem_language_rep_one (p := fun c => isAny c = true) fun _ => Iff.rfl

end CWorkspace.Regex
