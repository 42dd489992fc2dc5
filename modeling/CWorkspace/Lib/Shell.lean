import Mathlib.Data.List.Basic
import Mathlib.Data.List.Forall2
import Mathlib.Data.List.Infix
import Mathlib.Data.Nat.Notation
import Mathlib.Tactic.SplitIfs

/-!
# The patterns and the words of the shell

`fit` is the match of a whole text with a pattern, in the C locale. On it rest the expansions that remove a
prefix or a suffix or replace a part. `words` is what the shell splits an expansion outside quotes into.
-/

namespace CWorkspace.Shell

/-! ### Patterns -/

inductive Item
  | char (c : Char)
  /-- `?` -/
  | one
  /-- `*` -/
  | star
  /-- a bracket expression -/
  | set (member : Char → Bool)

def isWithin (lo hi c : Char) : Bool := lo ≤ c && c ≤ hi

def classes : List (List Char × (Char → Bool)) := [
  ("upper:]".toList, isWithin 'A' 'Z'),
  ("lower:]".toList, isWithin 'a' 'z'),
  ("alpha:]".toList, Char.isAlpha),
  ("digit:]".toList, isWithin '0' '9'),
  ("alnum:]".toList, Char.isAlphanum),
  ("word:]".toList, fun c => c.isAlphanum || c = '_'),
  ("xdigit:]".toList, fun c => isWithin '0' '9' c || isWithin 'A' 'F' c || isWithin 'a' 'f' c),
  ("blank:]".toList, fun c => c = ' ' || c = '\t'),
  ("space:]".toList, fun c => c = ' ' || isWithin '\t' '\x0d' c),
  ("punct:]".toList, fun c => isWithin '!' '~' c && !c.isAlphanum),
  ("graph:]".toList, isWithin '!' '~'),
  ("print:]".toList, isWithin ' ' '~'),
  ("cntrl:]".toList, fun c => c < ' ' || c = '\x7f'),
  ("ascii:]".toList, fun c => c ≤ '\x7f')]

/-- One character of a bracket expression, and what follows. -/
def element : List Char → Option (Char × List Char)
  | [] => none
  | '\\' :: c :: rest => some (c, rest)
  | '[' :: '=' :: c :: '=' :: ']' :: rest => some (c, rest)
  | '[' :: '.' :: c :: '.' :: ']' :: rest => some (c, rest)
  | c :: rest => some (c, rest)

/-- A class, a range or a single character, and what follows. -/
def memberOf (text : List Char) : Option ((Char → Bool) × List Char) :=
  let cls := if "[:".toList.isPrefixOf text then
    classes.find? fun cls => cls.1.isPrefixOf (text.drop 2) else none
  match cls with
  | some (name, member) => some (member, text.drop (2 + name.length))
  | none => do
    let (lo, rest) ← element text
    match rest with
    | '-' :: c :: rest' =>
      if c = ']' then return ((· == lo), rest)
      let (hi, rest) ← element (c :: rest')
      return (isWithin lo hi, rest)
    | _ => return ((· == lo), rest)

/-- A bracket expression up to its `]`, and what follows; a `]` that comes first is a member. -/
def members : ℕ → Bool → List Char → Option ((Char → Bool) × List Char)
  | 0, _, _ => none
  | fuel + 1, isFirst, text =>
    if text.head? = some ']' ∧ !isFirst then some (fun _ => false, text.tail)
    else do
      let (member, rest) ← memberOf text
      let (others, rest) ← members fuel false rest
      return (fun c => member c || others c, rest)

/-- What follows `[`. -/
def bracket (text : List Char) : Option ((Char → Bool) × List Char) :=
  match text with
  | '!' :: text | '^' :: text => do
    let (member, rest) ← members text.length true text
    return (fun c => !member c, rest)
  | text => members text.length true text

/-- Every step reads at least one character. -/
def itemsFuel : ℕ → List Char → List Item
  | 0, _ => []
  | _, [] => []
  | fuel + 1, c :: pat =>
    match c, pat with
    | '*', pat => .star :: itemsFuel fuel pat
    | '?', pat => .one :: itemsFuel fuel pat
    | '\\', c :: pat => .char c :: itemsFuel fuel pat
    | '[', pat =>
      match bracket pat with
      | some (member, rest) => .set member :: itemsFuel fuel rest
      -- without its end it is no bracket expression
      | none => .char '[' :: itemsFuel fuel pat
    | c, pat => .char c :: itemsFuel fuel pat

def items (pat : List Char) : List Item := itemsFuel pat.length pat

def fits : List Item → List Char → Bool
  | [], text => text.isEmpty
  | .char c :: pat, d :: text => c = d && fits pat text
  | .one :: pat, _ :: text => fits pat text
  | .set member :: pat, d :: text => member d && fits pat text
  | .star :: pat, text => text.tails.any (fits pat)
  | _ :: _, [] => false

def fit (pat text : List Char) : Bool := fits (items pat) text

/-- A character that stands for itself. -/
def isPlain (c : Char) : Bool := c ≠ '*' && c ≠ '?' && c ≠ '[' && c ≠ '\\'

theorem itemsFuel_cons {c : Char} (h : isPlain c) (fuel : ℕ) (pat : List Char) :
    itemsFuel (fuel + 1) (c :: pat) = .char c :: itemsFuel fuel pat := by
  obtain ⟨⟨⟨h1, h2⟩, h3⟩, h4⟩ : ((c ≠ '*' ∧ c ≠ '?') ∧ c ≠ '[') ∧ c ≠ '\\' := by simpa [isPlain] using h
  rw [itemsFuel]
  · exact h1
  · exact h2
  · exact h3
  · exact fun d rest heq => absurd heq h4

theorem items_cons {c : Char} (h : isPlain c) (pat : List Char) : items (c :: pat) = .char c :: items pat :=
  itemsFuel_cons h _ _

theorem fit_nil (text : List Char) : fit [] text ↔ text = [] := List.isEmpty_iff

theorem fit_cons {c : Char} (h : isPlain c) (pat text : List Char) :
    fit (c :: pat) text ↔ ∃ rest, text = c :: rest ∧ fit pat rest := by
  rw [fit, items_cons h]
  cases text with
  | nil => exact iff_of_false Bool.false_ne_true fun ⟨_, heq, _⟩ => List.cons_ne_nil _ _ heq.symm
  | cons d text =>
    rw [fits, Bool.and_eq_true, decide_eq_true_eq]
    constructor
    · rintro ⟨rfl, hfit⟩
      exact ⟨text, rfl, hfit⟩
    · rintro ⟨rest, heq, hfit⟩
      obtain ⟨rfl, rfl⟩ := List.cons.inj heq
      exact ⟨rfl, hfit⟩

theorem fit_append {w : List Char} (h : ∀ c ∈ w, isPlain c) (pat text : List Char) :
    fit (w ++ pat) text ↔ ∃ rest, text = w ++ rest ∧ fit pat rest := by
  induction w generalizing text with
  | nil => exact ⟨fun hfit => ⟨text, rfl, hfit⟩, fun ⟨_, heq, hfit⟩ => heq ▸ hfit⟩
  | cons c w ih =>
    rw [List.cons_append, fit_cons (h c List.mem_cons_self)]
    simp only [ih fun d hd => h d (List.mem_cons_of_mem c hd)]
    constructor
    · rintro ⟨-, rfl, rest, rfl, hfit⟩
      exact ⟨rest, rfl, hfit⟩
    · rintro ⟨rest, rfl, hfit⟩
      exact ⟨_, rfl, rest, rfl, hfit⟩

theorem fit_star (pat text : List Char) : fit ('*' :: pat) text ↔ ∃ rest, rest <:+ text ∧ fit pat rest := by
  show text.tails.any (fits (items pat)) = true ↔ _
  simp only [List.any_eq_true, List.mem_tails]
  rfl

theorem fit_plain {w : List Char} (h : ∀ c ∈ w, isPlain c) (text : List Char) : fit w text ↔ text = w := by
  have hfit := fit_append h [] text
  simp only [List.append_nil, fit_nil] at hfit
  rw [hfit]
  constructor
  · rintro ⟨-, rfl, rfl⟩
    exact List.append_nil w
  · rintro rfl
    exact ⟨[], (List.append_nil text).symm, rfl⟩

theorem fit_append_star {w : List Char} (h : ∀ c ∈ w, isPlain c) (text : List Char) :
    fit (w ++ ['*']) text ↔ w <+: text := by
  rw [fit_append h]
  constructor
  · rintro ⟨rest, rfl, -⟩
    exact List.prefix_append _ _
  · rintro ⟨rest, rfl⟩
    exact ⟨rest, rfl, (fit_star [] rest).2 ⟨[], List.nil_suffix, rfl⟩⟩

theorem fit_star_plain {w : List Char} (h : ∀ c ∈ w, isPlain c) (text : List Char) :
    fit ('*' :: w) text ↔ w <:+ text := by
  simp only [fit_star, fit_plain h]
  exact ⟨fun ⟨_, hsuf, heq⟩ => heq ▸ hsuf, fun hsuf => ⟨w, hsuf, rfl⟩⟩

/-! ### Expansions -/

/-- `${x#pat}` -/
def removeShortestPrefix (pat x : List Char) : List Char :=
  match (List.range (x.length + 1)).find? fun n => fit pat (x.take n) with
  | some n => x.drop n
  | none => x

/-- `${x%%pat}` -/
def removeLongestSuffix (pat x : List Char) : List Char :=
  match (List.range (x.length + 1)).find? fun n => fit pat (x.drop n) with
  | some n => x.take n
  | none => x

/-- `${x/pat/}`: without the longest match at the first place where there is one. -/
def removeFirst (pat x : List Char) : List Char :=
  match (List.range (x.length + 1)).reverse.find? fun n => fit pat (x.take n) with
  | some n => x.drop n
  | none =>
    match x with
    | [] => []
    | c :: x => c :: removeFirst pat x

section
variable {u v : List Char}

theorem removeShortestPrefix_star {c : Char} (h : isPlain c) (hu : c ∉ u) :
    removeShortestPrefix ['*', c] (u ++ c :: v) = v := by
  have hplain : ∀ d ∈ [c], isPlain d := fun d hd => by rwa [List.mem_singleton.1 hd]
  have hfind : (List.range ((u ++ c :: v).length + 1)).find?
      (fun n => fit ['*', c] ((u ++ c :: v).take n)) = some (u.length + 1) := by
    rw [List.find?_range_eq_some]
    refine ⟨?_, by rw [List.mem_range, List.length_append, List.length_cons]; omega, fun j hj => ?_⟩
    · rw [fit_star_plain hplain, List.append_cons, List.take_left' (by simp)]
      exact List.suffix_append _ _
    · rw [Bool.not_eq_true', Bool.eq_false_iff, Ne, fit_star_plain hplain,
        List.take_append_of_le_length (Nat.lt_succ_iff.1 hj)]
      exact fun hsuf => hu (List.mem_of_mem_take (hsuf.subset (List.mem_singleton_self c)))
  rw [removeShortestPrefix, hfind, List.append_cons]
  exact List.drop_left' (by simp)

theorem removeLongestSuffix_star {c : Char} (h : isPlain c) (hu : c ∉ u) :
    removeLongestSuffix [c, '*'] (u ++ c :: v) = u := by
  have hplain : ∀ d ∈ [c], isPlain d := fun d hd => by rwa [List.mem_singleton.1 hd]
  have hfind : (List.range ((u ++ c :: v).length + 1)).find?
      (fun n => fit [c, '*'] ((u ++ c :: v).drop n)) = some u.length := by
    rw [List.find?_range_eq_some]
    refine ⟨?_, by rw [List.mem_range, List.length_append]; omega, fun j hj => ?_⟩
    · rw [List.drop_left]
      exact (fit_append_star hplain _).2 ⟨v, rfl⟩
    · rw [Bool.not_eq_true', Bool.eq_false_iff, Ne]
      intro hfit
      obtain ⟨rest, hrest⟩ := (fit_append_star hplain _).1 hfit
      rw [List.drop_append_of_le_length hj.le, List.drop_eq_getElem_cons hj] at hrest
      exact hu ((List.cons.inj hrest).1 ▸ List.getElem_mem hj)
  rw [removeLongestSuffix, hfind]
  exact List.take_left

/-- A pattern that begins with a plain character matches no earlier than that occurs. -/
theorem removeFirst_append {c : Char} (h : isPlain c) (hu : c ∉ u) (pat : List Char) :
    removeFirst (c :: pat) (u ++ v) = u ++ removeFirst (c :: pat) v := by
  induction u with
  | nil => rfl
  | cons d u ih =>
    have hnone : (List.range ((d :: (u ++ v)).length + 1)).reverse.find?
        (fun n => fit (c :: pat) ((d :: (u ++ v)).take n)) = none := by
      rw [List.find?_eq_none]
      intro n _ hfit
      obtain ⟨rest, hrest, -⟩ := (fit_cons h _ _).1 hfit
      have hmem : c ∈ (d :: (u ++ v)).take n := hrest ▸ List.mem_cons_self
      cases n with
      | zero => exact List.not_mem_nil hmem
      | succ n =>
        rw [List.take_succ_cons] at hrest
        exact hu ((List.cons.inj hrest).1 ▸ List.mem_cons_self)
    rw [List.cons_append, removeFirst, hnone]
    exact congrArg (d :: ·) (ih fun hmem => hu (List.mem_cons_of_mem d hmem))

end

theorem removeFirst_sublist (pat x : List Char) : List.Sublist (removeFirst pat x) x := by
  induction x with
  | nil =>
    rw [removeFirst]
    split
    exacts [List.drop_sublist _ _, List.Sublist.refl _]
  | cons c x ih =>
    rw [removeFirst]
    split
    exacts [List.drop_sublist _ _, ih.cons_cons c]

theorem removeFirst_eq_nil_iff {pat x : List Char} (hne : x ≠ []) : removeFirst pat x = [] ↔ fit pat x := by
  obtain ⟨c, x, rfl⟩ := List.exists_cons_of_ne_nil hne
  have hfind : (List.range ((c :: x).length + 1)).reverse.find? (fun n => fit pat ((c :: x).take n)) =
      if fit pat (c :: x) then some (c :: x).length else
        (List.range (c :: x).length).reverse.find? fun n => fit pat ((c :: x).take n) := by
    rw [List.range_succ, List.reverse_concat, List.find?_cons, List.take_length]
    cases fit pat (c :: x) <;> rfl
  rw [removeFirst, hfind]
  by_cases hfit : fit pat (c :: x)
  · rw [if_pos hfit]
    simp [hfit]
  · rw [if_neg hfit]
    refine iff_of_false ?_ hfit
    split
    · rename_i n hn
      have hlt := List.mem_range.1 (List.mem_reverse.1 (List.mem_of_find?_eq_some hn))
      exact fun hnil => absurd (List.drop_eq_nil_iff.1 hnil) (Nat.not_le.2 hlt)
    · exact List.cons_ne_nil _ _

def isBlank (c : Char) : Bool := c = ' ' || c = '\t' || c = '\n'

/-- The words of an expansion outside quotes, before file names are put in for patterns. -/
def words (x : List Char) : List (List Char) := (x.splitOnP isBlank).filter (· ≠ [])

theorem words_append_cons (u v : List Char) {c : Char} (h : isBlank c) :
    words (u ++ c :: v) = words u ++ words v := by
  rw [words, List.splitOnP_append_cons u v h, List.filter_append]; rfl

theorem words_of_free {x : List Char} (hne : x ≠ []) (h : ∀ c ∈ x, isBlank c = false) : words x = [x] := by
  have hkept : decide (x ≠ []) = true := decide_eq_true hne
  rw [words, List.splitOnP_eq_singleton h, List.filter_singleton, hkept]; rfl

theorem mem_splitOnP {sep : Char → Bool} {x : List Char} :
    ∀ w ∈ x.splitOnP sep, ∀ c ∈ w, c ∈ x ∧ sep c = false := by
  induction x with
  | nil => exact fun w hw c hc => absurd (List.mem_singleton.1 hw ▸ hc) List.not_mem_nil
  | cons d x ih =>
    have ih' : ∀ w ∈ x.splitOnP sep, ∀ c ∈ w, c ∈ d :: x ∧ sep c = false := fun w hw c hc =>
      (ih w hw c hc).imp_left (List.mem_cons_of_mem d)
    rw [List.splitOnP_cons_eq_if_modifyHead]
    split_ifs with hd
    · intro w hw c hc
      rcases List.mem_cons.1 hw with rfl | hw
      exacts [absurd hc List.not_mem_nil, ih' w hw c hc]
    · obtain ⟨v, vs, hv⟩ := List.exists_cons_of_ne_nil (List.splitOnP_ne_nil sep x)
      rw [hv] at ih' ⊢
      intro w hw c hc
      rcases List.mem_cons.1 hw with rfl | hw
      · rcases List.mem_cons.1 hc with rfl | hc
        exacts [⟨List.mem_cons_self, Bool.eq_false_iff.2 hd⟩, ih' v List.mem_cons_self c hc]
      · exact ih' w (List.mem_cons_of_mem v hw) c hc

theorem isBlank_of_mem_words {x w : List Char} (h : w ∈ words x) : ∀ c ∈ w, isBlank c = false :=
  fun c hc => (mem_splitOnP w (List.mem_of_mem_filter h) c hc).2

theorem words_ne_nil {x : List Char} (h : ∃ c ∈ x, isBlank c = false) : words x ≠ [] := by
  induction x with
  | nil => exact absurd h fun ⟨_, hmem, _⟩ => List.not_mem_nil hmem
  | cons c x ih =>
    cases hc : isBlank c with
    | true =>
      rw [← List.nil_append (c :: x), words_append_cons [] x hc]
      obtain ⟨d, hmem, hd⟩ := h
      rcases List.mem_cons.1 hmem with rfl | hmem
      · exact absurd hc (by rw [hd]; exact Bool.false_ne_true)
      · exact List.append_ne_nil_of_right_ne_nil _ (ih ⟨d, hmem, hd⟩)
    | false =>
      obtain ⟨w, ws, hw⟩ := List.exists_cons_of_ne_nil (List.splitOnP_ne_nil isBlank x)
      rw [words, List.splitOnP_cons_eq_if_modifyHead, hc, hw]
      simp

theorem words_nil : words [] = [] := rfl

theorem words_of_blank_free {x : List Char} (h : ∀ c ∈ x, isBlank c = false) :
    words x = if x = [] then [] else [x] := by
  split_ifs with hnil
  · rw [hnil]; rfl
  · exact words_of_free hnil h

theorem words_intercalate (l : List (List Char)) : words ([' '].intercalate l) = l.flatMap words := by
  induction l with
  | nil => rfl
  | cons x l ih =>
    cases l with
    | nil => simp
    | cons y l =>
      rw [List.intercalate_cons_cons, List.append_assoc, List.singleton_append, words_append_cons _ _ (by rfl), ih]
      rfl

theorem intercalate_append {l l' : List (List Char)} (hl : l ≠ []) (hl' : l' ≠ []) :
    [' '].intercalate (l ++ l') = [' '].intercalate l ++ ' ' :: [' '].intercalate l' := by
  induction l with
  | nil => exact absurd rfl hl
  | cons w l ih =>
    by_cases hnil : l = []
    · rw [hnil, List.singleton_append, List.intercalate_cons_of_ne_nil hl']
      simp
    · rw [List.cons_append, List.intercalate_cons_of_ne_nil (by simp [hnil]), List.intercalate_cons_of_ne_nil hnil,
        ih hnil]
      simp

theorem intercalate_joined (before : List (List Char)) (a b : List Char) (c : Char) (after : List (List Char)) :
    [' '].intercalate (before ++ (a ++ c :: b) :: after) =
      [' '].intercalate (before ++ [a]) ++ c :: [' '].intercalate (b :: after) := by
  have hright : ∀ w : List Char,
      [' '].intercalate ((w ++ c :: b) :: after) = w ++ c :: [' '].intercalate (b :: after) := by
    intro w
    cases after <;> simp [List.intercalate_cons_cons]
  by_cases hnil : before = []
  · simp [hnil, hright]
  · rw [intercalate_append hnil (List.cons_ne_nil _ _), intercalate_append hnil (List.cons_ne_nil _ _), hright]
    simp

theorem intercalate_flatten {ls : List (List (List Char))} (h : ∀ l ∈ ls, l ≠ []) :
    [' '].intercalate ls.flatten = [' '].intercalate (ls.map [' '].intercalate) := by
  induction ls with
  | nil => rfl
  | cons l ls ih =>
    have hrest := fun l hl => h l (List.mem_cons_of_mem _ hl)
    by_cases hnil : ls = []
    · simp [hnil]
    · have hne : ls.flatten ≠ [] := by
        obtain ⟨l', ls, rfl⟩ := List.exists_cons_of_ne_nil hnil
        simp [hrest l' List.mem_cons_self]
      rw [List.flatten_cons, intercalate_append (h l List.mem_cons_self) hne, ih hrest, List.map_cons,
        List.intercalate_cons_of_ne_nil (by simpa using hnil)]
      simp

theorem not_mem_intercalate {c : Char} (hc : c ≠ ' ') {l : List (List Char)} (h : ∀ w ∈ l, c ∉ w) :
    c ∉ [' '].intercalate l := by
  induction l with
  | nil => exact List.not_mem_nil
  | cons w l ih =>
    obtain ⟨hw, hl⟩ := List.forall_mem_cons.1 h
    by_cases hnil : l = []
    · rwa [hnil, List.intercalate_singleton]
    · rw [List.intercalate_cons_of_ne_nil hnil]
      simp [hc, hw, ih hl]

theorem mem_intercalate {c : Char} {w : List Char} {l : List (List Char)} (hw : w ∈ l) (hc : c ∈ w) :
    c ∈ [' '].intercalate l := by
  obtain ⟨before, after, rfl⟩ := List.append_of_mem hw
  obtain ⟨u, v, rfl⟩ := List.append_of_mem hc
  rw [intercalate_joined]
  exact List.mem_append_right _ List.mem_cons_self

def withoutBlanks (x : List Char) : List Char := x.filter fun c => !isBlank c

theorem withoutBlanks_append_cons (x y : List Char) {c : Char} (hc : isBlank c = false) :
    withoutBlanks (x ++ c :: y) = withoutBlanks x ++ c :: withoutBlanks y := by
  rw [withoutBlanks, List.filter_append, List.filter_cons_of_pos (by rw [hc]; rfl)]
  rfl

theorem flatten_words (x : List Char) : (words x).flatten = withoutBlanks x := by
  induction x with
  | nil => rfl
  | cons c x ih =>
    by_cases h : isBlank c
    · have hwords : words (c :: x) = words x := words_append_cons [] x h
      rw [hwords, ih, withoutBlanks, withoutBlanks, List.filter_cons_of_neg (by simp [h])]
    · obtain ⟨w, ws, hw⟩ := List.exists_cons_of_ne_nil (List.splitOnP_ne_nil isBlank x)
      rw [words, hw] at ih
      rw [words, List.splitOnP_cons_eq_if_modifyHead, if_neg h, hw, withoutBlanks,
        List.filter_cons_of_pos (by simpa using h), ← withoutBlanks, ← ih]
      by_cases hnil : w = [] <;> simp [hnil]

theorem exists_words_cons {c : Char} (hc : isBlank c = false) (x : List Char) :
    ∃ w ws, words (c :: x) = (c :: w) :: ws := by
  obtain ⟨w, ws, hw⟩ := List.exists_cons_of_ne_nil (List.splitOnP_ne_nil isBlank x)
  refine ⟨w, ws.filter (· ≠ []), ?_⟩
  rw [words, List.splitOnP_cons_eq_if_modifyHead, hc, hw]
  simp

theorem words_of_mem_words {x w : List Char} (h : w ∈ words x) : words w = [w] :=
  words_of_free (by simpa using (List.mem_filter.1 h).2) (isBlank_of_mem_words h)

theorem mem_of_mem_words {x w : List Char} (h : w ∈ words x) : ∀ c ∈ w, isBlank c = false ∧ c ∈ x := fun c hc =>
  (mem_splitOnP w (List.mem_of_mem_filter h) c hc).symm

theorem flatMap_words {x : List Char} {l : List (List Char)} (h : ∀ w ∈ l, w ∈ words x) : l.flatMap words = l := by
  rw [List.flatMap_congr fun w hw => words_of_mem_words (h w hw), List.flatMap_singleton']

theorem exists_last_word (x : List Char) : ∃ u a, x = u ++ a ∧ (∀ c ∈ a, isBlank c = false) ∧
    ∀ z, words (u ++ z) = words u ++ words z := by
  have hends : ∃ u a, x = u ++ a ∧ (∀ c ∈ a, isBlank c = false) ∧ (u = [] ∨ ∃ v s, isBlank s ∧ u = v ++ [s]) := by
    induction x with
    | nil => exact ⟨[], [], rfl, by simp, .inl rfl⟩
    | cons c x ih =>
      obtain ⟨u, a, rfl, ha, rfl | ⟨v, s, hs, rfl⟩⟩ := ih
      · by_cases hc : isBlank c
        · exact ⟨[c], a, rfl, ha, .inr ⟨[], c, hc, rfl⟩⟩
        · exact ⟨[], c :: a, rfl, List.forall_mem_cons.2 ⟨Bool.eq_false_iff.2 hc, ha⟩, .inl rfl⟩
      · exact ⟨c :: v ++ [s], a, rfl, ha, .inr ⟨c :: v, s, hs, rfl⟩⟩
  obtain ⟨u, a, rfl, ha, hu⟩ := hends
  refine ⟨u, a, rfl, ha, fun z => ?_⟩
  rcases hu with rfl | ⟨v, s, hs, rfl⟩
  · rfl
  · have hnil : words (v ++ [s]) = words v := by rw [words_append_cons v [] hs, words_nil, List.append_nil]
    rw [hnil, List.append_assoc]
    exact words_append_cons v z hs

theorem exists_first_word (x : List Char) : ∃ b u, x = b ++ u ∧ (∀ c ∈ b, isBlank c = false) ∧
    ∀ z, words (z ++ u) = words z ++ words u := by
  refine ⟨x.takeWhile (!isBlank ·), x.dropWhile (!isBlank ·), List.takeWhile_append_dropWhile.symm,
    fun c hc => by simpa using List.all_eq_true.1 List.all_takeWhile c hc, fun z => ?_⟩
  cases h : x.dropWhile (!isBlank ·) with
  | nil => rw [List.append_nil, words_nil, List.append_nil]
  | cons s u =>
    have hs : isBlank s := by
      have hhead := List.head_dropWhile_not (!isBlank ·) (l := x) (by rw [h]; exact List.cons_ne_nil _ _)
      simp only [h, List.head_cons] at hhead
      simpa using hhead
    have hcons : words (s :: u) = words u := words_append_cons [] u hs
    rw [words_append_cons z u hs, hcons]

/-- A character joins the last word before it to the first one behind it. -/
theorem exists_joined_word (x y : List Char) {c : Char} (hc : isBlank c = false) :
    ∃ before a b after, words (x ++ c :: y) = before ++ (a ++ c :: b) :: after ∧
      (words x = before ++ words a ∧ a <:+ x ∧ ∀ d ∈ a, isBlank d = false) ∧
      words y = words b ++ after ∧ b <+: y ∧ ∀ d ∈ b, isBlank d = false := by
  obtain ⟨u, a, rfl, ha, hu⟩ := exists_last_word x
  obtain ⟨b, v, rfl, hb, hv⟩ := exists_first_word y
  refine ⟨words u, a, b, words v, ?_, ⟨hu a, List.suffix_append _ _, ha⟩, hv b, List.prefix_append _ _, hb⟩
  have hjoin : ∀ d ∈ a ++ c :: b, isBlank d = false := by
    intro d hd
    rcases List.mem_append.1 hd with hd | hd
    · exact ha d hd
    · rcases List.mem_cons.1 hd with rfl | hd
      exacts [hc, hb d hd]
  have hparts : u ++ a ++ c :: (b ++ v) = u ++ ((a ++ c :: b) ++ v) := by simp
  rw [hparts, hu, hv, words_of_free (by simp) hjoin]
  rfl

/-- A text with the words of a text without blanks is that text with blanks. -/
theorem withoutBlanks_of_words_eq {x y : List Char} (h : words y = words x) (hx : ∀ c ∈ x, isBlank c = false) :
    withoutBlanks y = x := by
  rw [← flatten_words, h, flatten_words, withoutBlanks, List.filter_eq_self]
  exact fun c hc => by rw [hx c hc]; rfl

theorem length_words_le {x : List Char} (h : ∀ c ∈ x, isBlank c = false) : (words x).length ≤ 1 := by
  rw [words_of_blank_free h]
  split_ifs <;> simp

/-- Texts that have the same words together have the same words each, if none of them has fewer. -/
theorem words_eq_of_le {xs ys : List (List Char)}
    (h : List.Forall₂ (fun x y => (words x).length ≤ (words y).length) xs ys)
    (heq : ys.flatMap words = xs.flatMap words) : List.Forall₂ (fun x y => words y = words x) xs ys := by
  have hle : ∀ {xs ys : List (List Char)}, List.Forall₂ (fun x y => (words x).length ≤ (words y).length) xs ys →
      (xs.flatMap words).length ≤ (ys.flatMap words).length := by
    intro xs ys h
    induction h with
    | nil => exact le_rfl
    | cons hxy _ ih => rw [List.flatMap_cons, List.flatMap_cons, List.length_append, List.length_append]; omega
  induction h with
  | nil => exact .nil
  | cons hxy hrest ih =>
    have hlen := congrArg List.length heq
    have := hle hrest
    rw [List.flatMap_cons, List.flatMap_cons, List.length_append, List.length_append] at hlen
    obtain ⟨hhead, hrest⟩ := List.append_inj heq (by omega)
    exact .cons hhead (ih hrest)

/-- Nor if all that is changed becomes one text. -/
theorem words_eq_of_const {g : List Char} {xs ys : List (List Char)}
    (h : List.Forall₂ (fun x y => (words x).length ≤ 1 ∧ (y = x ∨ y = g)) xs ys)
    (heq : ys.flatMap words = xs.flatMap words) : List.Forall₂ (fun x y => words y = words x) xs ys := by
  by_cases hg : 1 ≤ (words g).length
  · refine words_eq_of_le (h.imp fun x y hxy => ?_) heq
    obtain ⟨hx, rfl | rfl⟩ := hxy
    exacts [le_rfl, hx.trans hg]
  · have hle : List.Forall₂ (fun x y => (words y).length ≤ (words x).length) xs ys := by
      refine h.imp fun x y hxy => ?_
      obtain ⟨-, rfl | rfl⟩ := hxy
      · exact le_rfl
      · omega
    exact ((words_eq_of_le hle.flip heq.symm).imp fun _ _ h => h.symm).flip

theorem words_eq_of_head {x y : List Char} {xs ys : List (List Char)}
    (h : List.Forall₂ (fun x y => (words y).length = (words x).length) xs ys)
    (heq : (y :: ys).flatMap words = (x :: xs).flatMap words) :
    List.Forall₂ (fun x y => words y = words x) (x :: xs) (y :: ys) := by
  rcases le_total (words x).length (words y).length with hle | hle
  · exact words_eq_of_le (.cons hle (h.imp fun _ _ h => h.ge)) heq
  · have hflip := words_eq_of_le (.cons hle (h.imp fun _ _ h => h.le).flip) heq.symm
    exact (hflip.imp fun _ _ h => h.symm).flip

/-- Nothing between two parts without blanks is blank if all becomes one word. -/
theorem isBlank_of_words_eq {u v s w : List Char} (hu : ∃ c ∈ u, isBlank c = false)
    (hs : ∃ c ∈ s, isBlank c = false) (h : words (u ++ v ++ s) = [w]) : ∀ c ∈ v, isBlank c = false := by
  intro c hc
  by_contra hblank
  obtain ⟨v₁, v₂, rfl⟩ := List.append_of_mem hc
  have hparts : u ++ (v₁ ++ c :: v₂) ++ s = (u ++ v₁) ++ c :: (v₂ ++ s) := by simp
  rw [hparts, words_append_cons _ _ (Bool.of_not_eq_false hblank)] at h
  have hleft : words (u ++ v₁) ≠ [] := words_ne_nil (hu.imp fun d hd => ⟨List.mem_append_left _ hd.1, hd.2⟩)
  have hright : words (v₂ ++ s) ≠ [] := words_ne_nil (hs.imp fun d hd => ⟨List.mem_append_right _ hd.1, hd.2⟩)
  have hlen := congrArg List.length h
  rw [List.length_append, List.length_singleton] at hlen
  have := List.length_pos_iff.2 hleft
  have := List.length_pos_iff.2 hright
  omega

end CWorkspace.Shell
