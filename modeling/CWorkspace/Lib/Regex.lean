import Mathlib.Data.List.Basic
import Mathlib.Data.List.TakeWhile
import Mathlib.Data.Nat.Notation
import Mathlib.Tactic.SplitIfs

/-!
# A backtracking regular-expression matcher

`Regex.ways r s` are the ways in which `r` matches at a position, in the order in which a backtracking
matcher tries them, so that the first one is its answer: a greedy repetition tries to go on before it
stops, a lazy one stops before it goes on, and a round that consumes nothing is not tried.
-/

namespace CWorkspace

inductive Regex
  | empty
  | char (c : Char)
  /-- any character but a line terminator -/
  | any
  /-- the start of the text -/
  | bol
  | seq (r q : Regex)
  | group (n : ℕ) (r : Regex)
  | opt (r : Regex)
  /-- `min` rounds or more -/
  | rep (lazy : Bool) (min : ℕ) (r : Regex)

/-- A position: whether it is the start, what is ahead, and the groups captured so far, newest first. -/
structure MatchState where
  atStart : Bool
  rest : List Char
  caps : List (ℕ × List Char)

def MatchState.skip (s : MatchState) : ℕ → MatchState
  | 0 => s
  | k + 1 => ⟨false, s.rest.drop (k + 1), s.caps⟩

namespace Regex

def lits (s : List Char) : Regex := s.foldr (fun c r => seq (char c) r) empty

def isAny (c : Char) : Bool := c ≠ '\n' ∧ c ≠ '\r'

def one (p : Char → Bool) (s : MatchState) : List MatchState :=
  match s.rest with
  | [] => []
  | c :: rest => if p c then [{ s with atStart := false, rest := rest }] else []

/-- Rounds of `round`, at most `fuel` of them. -/
def rounds (round : MatchState → List MatchState) (lazy : Bool) : ℕ → ℕ → MatchState → List MatchState
  | 0, min, s => if min = 0 then [s] else []
  | fuel + 1, min, s =>
    let more := ((round s).filter fun s' => s'.rest.length < s.rest.length).flatMap
      (rounds round lazy fuel (min - 1))
    if min ≠ 0 then more else if lazy then s :: more else more ++ [s]

def ways : Regex → MatchState → List MatchState
  | empty, s => [s]
  | char c, s => one (· == c) s
  | any, s => one isAny s
  | bol, s => if s.atStart then [s] else []
  | seq r q, s => (r.ways s).flatMap q.ways
  | group n r, s => (r.ways s).map fun s' =>
      { s' with caps := (n, s.rest.take (s.rest.length - s'.rest.length)) :: s'.caps }
  | opt r, s => r.ways s ++ [s]
  -- a round consumes something, so there are no more rounds than characters
  | rep lazy min r, s => rounds r.ways lazy s.rest.length min s

/-- The answer at the first position from which there is one. -/
def searchFrom (r : Regex) (atStart : Bool) : List Char → Option MatchState
  | [] => (r.ways ⟨atStart, [], []⟩).head?
  | c :: s =>
    match (r.ways ⟨atStart, c :: s, []⟩).head? with
    | some m => some m
    | none => searchFrom r false s

/-- `std::regex_search`. -/
def search (r : Regex) (s : List Char) : Option MatchState := r.searchFrom true s

/-- `std::regex_match`: the first way that uses up the text. -/
def fullMatch (r : Regex) (s : List Char) : Option MatchState :=
  (r.ways ⟨true, s, []⟩).find? fun m => m.rest.isEmpty

/-- `match.str(n)`: the text of a group, empty if there is no match or the group took no part in it. -/
def str (m : Option MatchState) (n : ℕ) : List Char := ((m.bind fun s => s.caps.lookup n)).getD []

def groups : Regex → List ℕ
  | empty | char _ | any | bol => []
  | seq r q => r.groups ++ q.groups
  | group n r => n :: r.groups
  | opt r => r.groups
  | rep _ _ r => r.groups

/-! ### What a way does -/

theorem mem_one {p : Char → Bool} {s s' : MatchState} (h : s' ∈ one p s) :
    ∃ c, s.rest = c :: s'.rest ∧ p c ∧ s'.caps = s.caps := by
  unfold one at h
  split at h
  · exact absurd h List.not_mem_nil
  · rename_i c rest heq
    split at h
    · rename_i hp
      rw [List.mem_singleton] at h
      rw [h]
      exact ⟨c, heq, hp, rfl⟩
    · exact absurd h List.not_mem_nil

theorem rounds_induction {round : MatchState → List MatchState} {lazy : Bool}
    {P : MatchState → MatchState → Prop} (hrefl : ∀ s, P s s)
    (htrans : ∀ s s' s'', s' ∈ round s → P s' s'' → P s s'') {fuel min : ℕ} {s s' : MatchState} (h : s' ∈ rounds round lazy fuel min s) : P s s' := by
  induction fuel generalizing min s with
  | zero =>
    unfold rounds at h
    split at h
    · rw [List.mem_singleton.1 h]; exact hrefl s
    · exact absurd h List.not_mem_nil
  | succ fuel ih =>
    have hmore : s' ∈ ((round s).filter fun s' => s'.rest.length < s.rest.length).flatMap
        (rounds round lazy fuel (min - 1)) → P s s' := by
      intro h
      obtain ⟨s₁, h₁, h₂⟩ := List.mem_flatMap.1 h
      exact htrans s s₁ s' (List.mem_filter.1 h₁).1 (ih h₂)
    unfold rounds at h
    dsimp only at h
    split_ifs at h
    · exact hmore h
    · rcases List.mem_cons.1 h with rfl | h
      exacts [hrefl _, hmore h]
    · rcases List.mem_append.1 h with h | h
      · exact hmore h
      · rw [List.mem_singleton.1 h]; exact hrefl s

theorem length_rest_le (r : Regex) {s s' : MatchState} (h : s' ∈ r.ways s) :
    s'.rest.length ≤ s.rest.length := by
  induction r generalizing s s' with
  | empty => exact List.mem_singleton.1 h ▸ Nat.le_refl _
  | char c | any =>
    obtain ⟨c, hc, -⟩ := mem_one h
    rw [hc, List.length_cons]; omega
  | bol =>
    unfold ways at h
    split at h
    · exact List.mem_singleton.1 h ▸ Nat.le_refl _
    · exact absurd h List.not_mem_nil
  | seq r q ihr ihq =>
    obtain ⟨s₁, h₁, h₂⟩ := List.mem_flatMap.1 h
    exact Nat.le_trans (ihq h₂) (ihr h₁)
  | group n r ih =>
    obtain ⟨s₁, h₁, rfl⟩ := List.mem_map.1 h
    show s₁.rest.length ≤ s.rest.length
    exact ih h₁
  | opt r ih =>
    rcases List.mem_append.1 h with h | h
    · exact ih h
    · exact List.mem_singleton.1 h ▸ Nat.le_refl _
  | rep lazy min r ih =>
    exact rounds_induction (P := fun s s' => s'.rest.length ≤ s.rest.length) (fun _ => Nat.le_refl _)
      (fun _ _ _ h₁ h₂ => Nat.le_trans h₂ (ih h₁)) h

theorem lookup_caps (r : Regex) {n : ℕ} (hn : n ∉ r.groups) {s s' : MatchState} (h : s' ∈ r.ways s) :
    s'.caps.lookup n = s.caps.lookup n := by
  induction r generalizing s s' with
  | empty => rw [List.mem_singleton.1 h]
  | char c | any =>
    obtain ⟨c, -, -, hc⟩ := mem_one h
    rw [hc]
  | bol =>
    unfold ways at h
    split at h
    · rw [List.mem_singleton.1 h]
    · exact absurd h List.not_mem_nil
  | seq r q ihr ihq =>
    obtain ⟨s₁, h₁, h₂⟩ := List.mem_flatMap.1 h
    rw [groups, List.mem_append, not_or] at hn
    rw [ihq hn.2 h₂, ihr hn.1 h₁]
  | group m r ih =>
    obtain ⟨s₁, h₁, rfl⟩ := List.mem_map.1 h
    rw [groups, List.mem_cons, not_or] at hn
    rw [List.lookup_cons, beq_eq_false_iff_ne.2 hn.1]
    exact ih hn.2 h₁
  | opt r ih =>
    rcases List.mem_append.1 h with h | h
    · exact ih hn h
    · rw [List.mem_singleton.1 h]
  | rep lazy min r ih =>
    exact rounds_induction (P := fun s s' => s'.caps.lookup n = s.caps.lookup n) (fun _ => rfl)
      (fun _ _ _ h₁ h₂ => h₂.trans (ih hn h₁)) h

theorem length_rest_lt_of_rep {lazy : Bool} {min : ℕ} (hmin : min ≠ 0) {r : Regex} {s s' : MatchState}
    (h : s' ∈ (rep lazy min r).ways s) : s'.rest.length < s.rest.length := by
  unfold ways at h
  cases hf : s.rest.length with
  | zero =>
    rw [hf, rounds, if_neg hmin] at h
    exact absurd h List.not_mem_nil
  | succ fuel =>
    rw [hf, rounds] at h
    simp only [ne_eq, hmin, not_false_eq_true, if_true] at h
    obtain ⟨s₁, h₁, h₂⟩ := List.mem_flatMap.1 h
    have hlt := (List.mem_filter.1 h₁).2
    have hle := rounds_induction (P := fun s s' => s'.rest.length ≤ s.rest.length) (fun _ => Nat.le_refl _)
      (fun _ _ _ h₁ h₂ => Nat.le_trans h₂ (r.length_rest_le h₁)) h₂
    rw [decide_eq_true_eq] at hlt
    omega

theorem search_mem (r : Regex) {t : List Char} {m : MatchState} (h : r.search t = some m) :
    ∃ atStart rest, m ∈ r.ways ⟨atStart, rest, []⟩ := by
  have hfrom : ∀ (t : List Char) (atStart : Bool), r.searchFrom atStart t = some m →
      ∃ atStart rest, m ∈ r.ways ⟨atStart, rest, []⟩ := by
    intro t
    induction t with
    | nil => exact fun atStart h => ⟨atStart, [], List.mem_of_mem_head? h⟩
    | cons c t ih =>
      intro atStart h
      unfold searchFrom at h
      split at h
      · rename_i m' hm'
        obtain rfl := Option.some.inj h
        exact ⟨atStart, c :: t, List.mem_of_mem_head? hm'⟩
      · exact ih false h
  exact hfrom t true h

@[simp] theorem skip_rest (s : MatchState) (k : ℕ) : (s.skip k).rest = s.rest.drop k := by
  cases k <;> rfl

@[simp] theorem skip_caps (s : MatchState) (k : ℕ) : (s.skip k).caps = s.caps := by
  cases k <;> rfl

theorem skip_one_skip {s : MatchState} (h : s.rest ≠ []) (k : ℕ) : (s.skip 1).skip k = s.skip (1 + k) := by
  obtain ⟨c, rest, hrest⟩ := List.exists_cons_of_ne_nil h
  cases k with
  | zero => rfl
  | succ k => rw [Nat.add_comm 1]; simp [MatchState.skip, hrest]

/-- The places a repetition of one character stops at, least first if lazy. -/
def stops (p : Char → Bool) (lazy : Bool) (min : ℕ) (s : MatchState) : List MatchState :=
  let ks := List.range' min ((s.rest.takeWhile p).length + 1 - min)
  (if lazy then ks else ks.reverse).map s.skip

theorem stops_of_nil {p : Char → Bool} {lazy : Bool} {min : ℕ} {s : MatchState} (h : s.rest.takeWhile p = []) :
    stops p lazy min s = if min = 0 then [s] else [] := by
  rw [stops, h]
  cases min with
  | zero => cases lazy <;> rfl
  | succ min => simp

theorem stops_of_pos {p : Char → Bool} {lazy : Bool} {min : ℕ} {s : MatchState} {c : Char} {rest : List Char}
    (hrest : s.rest = c :: rest) (hc : p c = true) : stops p lazy min s =
      if min ≠ 0 then stops p lazy (min - 1) (s.skip 1)
      else if lazy then s :: stops p lazy (min - 1) (s.skip 1) else stops p lazy (min - 1) (s.skip 1) ++ [s] := by
  have hlen : (s.rest.takeWhile p).length = ((s.skip 1).rest.takeWhile p).length + 1 := by
    simp [hrest, hc]
  have hmap : ∀ ks : List ℕ, ks.map (s.skip 1).skip = (ks.map (1 + ·)).map s.skip := fun ks => by
    rw [List.map_map]
    exact List.map_congr_left fun k _ => skip_one_skip (by rw [hrest]; exact List.cons_ne_nil _ _) k
  have hks : ∀ a m, (if lazy then List.range' a m else (List.range' a m).reverse).map (1 + ·) =
      if lazy then List.range' (1 + a) m else (List.range' (1 + a) m).reverse := fun a m => by
    cases lazy <;> simp [List.map_reverse, List.map_add_range']
  rw [stops, stops, hlen, hmap, hks]
  cases min with
  | zero =>
    have hzero : List.range' 0 (((s.skip 1).rest.takeWhile p).length + 1 + 1 - 0) =
        0 :: List.range' (1 + 0) (((s.skip 1).rest.takeWhile p).length + 1) := List.range'_succ
    have hmin : ¬ (0 : ℕ) ≠ 0 := fun h => h rfl
    rw [if_neg hmin, hzero]
    cases lazy
    · simp [MatchState.skip]
    · rfl
  | succ min =>
    rw [if_pos (Nat.succ_ne_zero min), Nat.add_sub_cancel, Nat.add_comm 1 min, Nat.add_sub_add_right]

theorem rounds_one (p : Char → Bool) (lazy : Bool) {fuel : ℕ} (min : ℕ) {s : MatchState}
    (hfuel : s.rest.length ≤ fuel) : rounds (one p) lazy fuel min s = stops p lazy min s := by
  induction fuel generalizing min s with
  | zero =>
    have hnil : s.rest = [] := List.length_eq_zero_iff.1 (Nat.le_zero.1 hfuel)
    rw [rounds, stops_of_nil (by rw [hnil]; rfl)]
  | succ fuel ih =>
    have hstop : one p s = [] → s.rest.takeWhile p = [] →
        rounds (one p) lazy (fuel + 1) min s = stops p lazy min s := by
      intro hone hnil
      rw [rounds, hone, stops_of_nil hnil]
      cases min <;> cases lazy <;> rfl
    cases hrest : s.rest with
    | nil => exact hstop (by simp [one, hrest]) (by simp [hrest])
    | cons c rest =>
      cases hp : p c with
      | false => exact hstop (by simp [one, hrest, hp]) (by simp [hrest, hp])
      | true =>
        have hmore : (one p s).filter (fun s' => s'.rest.length < s.rest.length) = [s.skip 1] := by
          simp [one, hrest, hp, MatchState.skip]
        have hfuel' : (s.skip 1).rest.length ≤ fuel := by
          rw [hrest, List.length_cons] at hfuel
          simp [hrest]; omega
        rw [rounds, hmore, List.flatMap_singleton, ih (min - 1) hfuel', stops_of_pos hrest hp]

theorem ways_rep_any (lazy : Bool) (s : MatchState) : (rep lazy 1 any).ways s =
    let ks := List.range' 1 (s.rest.takeWhile isAny).length
    (if lazy then ks else ks.reverse).map s.skip := rounds_one isAny lazy 1 (Nat.le_refl _)

theorem ways_lits (w : List Char) (s : MatchState) :
    (lits w).ways s = if w <+: s.rest then [s.skip w.length] else [] := by
  induction w generalizing s with
  | nil => rw [if_pos List.nil_prefix]; rfl
  | cons a w ih =>
    show ((char a).ways s).flatMap (lits w).ways = _
    cases hrest : s.rest with
    | nil => simp [ways, one, hrest]
    | cons c rest =>
      by_cases hc : c = a
      · subst hc
        have hone : (char c).ways s = [⟨false, rest, s.caps⟩] := by simp [ways, one, hrest]
        have hskip : MatchState.skip ⟨false, rest, s.caps⟩ w.length = s.skip (w.length + 1) := by
          cases w <;> simp [MatchState.skip, hrest]
        rw [hone, List.flatMap_singleton, ih, hskip]
        simp only [List.cons_prefix_cons, true_and, List.length_cons]
      · have hone : (char a).ways s = [] := by simp [ways, one, hrest, hc]
        rw [hone, if_neg fun h => hc (List.cons_prefix_cons.1 h).1.symm]
        rfl

theorem range'_split {j m : ℕ} (h1 : 1 ≤ j) (hj : j ≤ m) :
    List.range' 1 m = List.range' 1 (j - 1) ++ j :: List.range' (j + 1) (m - j) := by
  have h := List.range'_append_1 (s := 1) (m := j - 1) (n := m - j + 1)
  rw [show 1 + (j - 1) = j by omega, List.range'_succ, show j - 1 + (m - j + 1) = m by omega] at h
  exact h.symm

theorem head?_flatMap_of_nil {α β : Type*} {f : α → List β} {l l' : List α} {a : α}
    (hnil : ∀ b ∈ l, f b = []) (hne : f a ≠ []) : ((l ++ a :: l').flatMap f).head? = (f a).head? := by
  rw [List.flatMap_append, List.flatMap_eq_nil_iff.2 hnil, List.nil_append, List.flatMap_cons]
  exact List.head?_append_of_ne_nil _ hne

section
variable {f : MatchState → List MatchState} {s : MatchState} {j : ℕ}

/-- A lazy repetition goes on to the first place from which the rest matches. -/
theorem head?_lazy (h1 : 1 ≤ j) (hj : j ≤ (s.rest.takeWhile isAny).length)
    (hnil : ∀ i, 1 ≤ i → i < j → f (s.skip i) = []) (hne : f (s.skip j) ≠ []) :
    (((rep true 1 any).ways s).flatMap f).head? = (f (s.skip j)).head? := by
  rw [ways_rep_any]
  simp only [if_true]
  rw [range'_split h1 hj, List.map_append, List.map_cons]
  refine head?_flatMap_of_nil (fun b hb => ?_) hne
  obtain ⟨i, hi, rfl⟩ := List.mem_map.1 hb
  have := List.mem_range'_1.1 hi
  exact hnil i this.1 (by omega)

/-- A greedy repetition goes back to the last place from which the rest matches. -/
theorem head?_greedy (h1 : 1 ≤ j) (hj : j ≤ (s.rest.takeWhile isAny).length)
    (hnil : ∀ i, j < i → i ≤ (s.rest.takeWhile isAny).length → f (s.skip i) = [])
    (hne : f (s.skip j) ≠ []) : (((rep false 1 any).ways s).flatMap f).head? = (f (s.skip j)).head? := by
  rw [ways_rep_any]
  simp only [Bool.false_eq_true, if_false]
  rw [range'_split h1 hj, List.reverse_append, List.reverse_cons, List.append_assoc, List.map_append,
    List.singleton_append, List.map_cons]
  refine head?_flatMap_of_nil (fun b hb => ?_) hne
  obtain ⟨i, hi, rfl⟩ := List.mem_map.1 hb
  have := List.mem_range'_1.1 (List.mem_reverse.1 hi)
  exact hnil i (by omega) (by omega)

end

theorem ways_rep_any_ne_nil (lazy : Bool) (s : MatchState) :
    (rep lazy 1 any).ways s ≠ [] ↔ s.rest.head?.any isAny := by
  rw [ways_rep_any]
  cases s.rest with
  | nil => cases lazy <;> simp
  | cons c rest => cases hc : isAny c <;> cases lazy <;> simp [hc]

theorem caps_of_mem_rep_any {lazy : Bool} {s s' : MatchState} (h : s' ∈ (rep lazy 1 any).ways s) :
    s'.caps = s.caps := by
  rw [ways_rep_any] at h
  obtain ⟨k, -, rfl⟩ := List.mem_map.1 h
  exact skip_caps s k

theorem ways_seq_group (n : ℕ) (r q : Regex) (s : MatchState) : (seq (group n r) q).ways s =
    (r.ways s).flatMap fun s' =>
      q.ways { s' with caps := (n, s.rest.take (s.rest.length - s'.rest.length)) :: s'.caps } :=
  List.flatMap_map _ _ _

section
variable (q : Regex) {s : MatchState} {t u : List Char} (hrest : s.rest = t ++ u)
include hrest

theorem le_takeWhile (ht : ∀ a ∈ t, isAny a) : t.length ≤ (s.rest.takeWhile isAny).length := by
  rw [hrest, List.takeWhile_append_of_pos ht, List.length_append]
  omega

theorem skip_eq (ht : t ≠ []) : s.skip t.length = ⟨false, u, s.caps⟩ := by
  obtain ⟨n, hn⟩ : ∃ n, t.length = n + 1 := ⟨t.length - 1, by have := List.length_pos_iff.2 ht; omega⟩
  rw [hn, MatchState.skip, ← hn, hrest, List.drop_left]

/-- A lazy repetition before a pattern that matches behind `t`, but nowhere inside it. -/
theorem head?_seq_lazy (ht : t ≠ []) (hany : ∀ a ∈ t, isAny a)
    (hnil : ∀ i, 1 ≤ i → i < t.length → q.ways ⟨false, (t ++ u).drop i, s.caps⟩ = [])
    (hne : q.ways ⟨false, u, s.caps⟩ ≠ []) :
    ((seq (rep true 1 any) q).ways s).head? = (q.ways ⟨false, u, s.caps⟩).head? := by
  rw [← skip_eq hrest ht] at hne ⊢
  refine head?_lazy (List.length_pos_iff.2 ht) (le_takeWhile hrest hany) (fun i hi hlt => ?_) hne
  obtain ⟨i, rfl⟩ : ∃ m, i = m + 1 := ⟨i - 1, by omega⟩
  rw [MatchState.skip, hrest]
  exact hnil _ hi hlt

theorem ways_group_skip (n : ℕ) (ht : t ≠ []) : q.ways { s.skip t.length with
      caps := (n, s.rest.take (s.rest.length - (s.skip t.length).rest.length)) :: (s.skip t.length).caps } =
    q.ways ⟨false, u, (n, t) :: s.caps⟩ := by
  have hcap : s.rest.take (s.rest.length - (s.skip t.length).rest.length) = t := by
    rw [skip_rest, hrest, List.drop_left, List.length_append, Nat.add_sub_cancel, List.take_left]
  rw [hcap, skip_eq hrest ht]

theorem head?_group_lazy (n : ℕ) (ht : t ≠ []) (hany : ∀ a ∈ t, isAny a)
    (hnil : ∀ i caps, 1 ≤ i → i < t.length → q.ways ⟨false, (t ++ u).drop i, caps⟩ = [])
    (hne : q.ways ⟨false, u, (n, t) :: s.caps⟩ ≠ []) :
    ((seq (group n (rep true 1 any)) q).ways s).head? = (q.ways ⟨false, u, (n, t) :: s.caps⟩).head? := by
  rw [← ways_group_skip q hrest n ht] at hne ⊢
  rw [ways_seq_group]
  refine head?_lazy (List.length_pos_iff.2 ht) (le_takeWhile hrest hany) (fun i hi hlt => ?_) hne
  obtain ⟨i, rfl⟩ : ∃ m, i = m + 1 := ⟨i - 1, by omega⟩
  rw [MatchState.skip, hrest]
  exact hnil _ _ hi hlt

/-- A greedy group before a pattern that matches behind `t`, but nowhere after it. -/
theorem head?_group_greedy (n : ℕ) (ht : t ≠ []) (hany : ∀ a ∈ t, isAny a)
    (hnil : ∀ i caps, t.length < i → i ≤ (t ++ u).length → q.ways ⟨false, (t ++ u).drop i, caps⟩ = [])
    (hne : q.ways ⟨false, u, (n, t) :: s.caps⟩ ≠ []) :
    ((seq (group n (rep false 1 any)) q).ways s).head? = (q.ways ⟨false, u, (n, t) :: s.caps⟩).head? := by
  rw [← ways_group_skip q hrest n ht] at hne ⊢
  rw [ways_seq_group]
  refine head?_greedy (List.length_pos_iff.2 ht) (le_takeWhile hrest hany) (fun i hi hle => ?_) hne
  obtain ⟨i, rfl⟩ : ∃ m, i = m + 1 := ⟨i - 1, by omega⟩
  rw [MatchState.skip, hrest]
  exact hnil _ _ hi (hrest ▸ hle.trans (List.takeWhile_sublist _).length_le)

end

theorem ways_seq_char (a : Char) (q : Regex) (b : Bool) (u : List Char) (caps : List (ℕ × List Char)) :
    (seq (char a) q).ways ⟨b, a :: u, caps⟩ = q.ways ⟨false, u, caps⟩ := by
  simp [ways, one]

theorem ways_seq_char_of_ne {a : Char} (q : Regex) {s : MatchState} (h : s.rest.head? ≠ some a) :
    (seq (char a) q).ways s = [] := by
  cases hrest : s.rest with
  | nil => simp [ways, one, hrest]
  | cons c u =>
    have hne : c ≠ a := fun heq => h (by rw [hrest, heq]; rfl)
    simp [ways, one, hrest, hne]

theorem ways_seq_lits (w : List Char) (q : Regex) (s : MatchState) :
    (seq (lits w) q).ways s = if w <+: s.rest then q.ways (s.skip w.length) else [] := by
  show ((lits w).ways s).flatMap q.ways = _
  rw [ways_lits]
  split_ifs
  exacts [List.flatMap_singleton _ _, rfl]

theorem search_of_start {r : Regex} {t : List Char} {m : MatchState}
    (h : (r.ways ⟨true, t, []⟩).head? = some m) : r.search t = some m := by
  cases t with
  | nil => exact h
  | cons c t => rw [search, searchFrom, h]

theorem search_isSome_iff (r : Regex) (t : List Char) : (r.search t).isSome ↔
    ∃ pre rest, t = pre ++ rest ∧ r.ways ⟨pre.isEmpty, rest, []⟩ ≠ [] := by
  have hfrom : ∀ (t : List Char) (atStart : Bool), (r.searchFrom atStart t).isSome ↔
      ∃ pre rest, t = pre ++ rest ∧ r.ways ⟨atStart && pre.isEmpty, rest, []⟩ ≠ [] := by
    intro t
    induction t with
    | nil =>
      intro atStart
      rw [searchFrom, List.isSome_head?]
      constructor
      · intro h
        exact ⟨[], [], rfl, by simpa using h⟩
      · rintro ⟨pre, rest, hnil, h⟩
        obtain ⟨rfl, rfl⟩ := List.append_eq_nil_iff.1 hnil.symm
        simpa using h
    | cons c t ih =>
      intro atStart
      rw [searchFrom]
      split
      · rename_i m hm
        refine iff_of_true rfl ⟨[], c :: t, rfl, fun hnil => ?_⟩
        rw [List.isEmpty_nil, Bool.and_true] at hnil
        rw [hnil] at hm
        exact absurd hm (by simp)
      · rename_i hnone
        have hnil := List.head?_eq_none_iff.1 hnone
        rw [ih]
        constructor
        · rintro ⟨pre, rest, rfl, h⟩
          exact ⟨c :: pre, rest, rfl, by simpa using h⟩
        · rintro ⟨pre, rest, heq, h⟩
          cases pre with
          | nil =>
            obtain rfl : c :: t = rest := heq
            rw [List.isEmpty_nil, Bool.and_true] at h
            exact absurd hnil h
          | cons d pre =>
            obtain ⟨rfl, rfl⟩ := List.cons.inj heq
            exact ⟨pre, rest, rfl, by simpa using h⟩
  have h := hfrom t true
  simp only [Bool.true_and] at h
  exact h

end Regex

end CWorkspace
