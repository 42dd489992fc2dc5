import CWorkspace.Lib.RegexLang
import CWorkspace.Stub.Gene
import Mathlib.Data.List.DropRight

/-!
# How many parameters a method has

`countMethodParams` counts all commas of a signature, and where there are none looks for `()` or `(void)`
anywhere in it. What C++ counts are the commas of the parameter list that are in no brackets, literal or comment
(`paramCount`); `countMethodParams_iff` says when the two are the same.
-/

namespace CWorkspace.Stub

/-! ### The parameters of C++ -/

/-- What the next character of a text stands in. -/
inductive Lexeme
  | space
  | word (read : string)
  | number
  /-- behind a literal, where its suffix may stand -/
  | suffix
  /-- behind the word `operator` -/
  | operator
  | literal (quote : Char)
  /-- a raw literal, before its parenthesis -/
  | delimiter (read : string)
  /-- a raw literal and what ends it -/
  | raw (close read : string)
  | comment
deriving DecidableEq

def isWordChar (c : Char) : Bool := c.isAlphanum || c = '_'

def isWhite (c : Char) : Bool := c = ' ' || c = '\t' || c = '\x0b' || c = '\x0c'

def rawPrefixes : List string := ["R".toList, "u8R".toList, "uR".toList, "UR".toList, "LR".toList]

def Lexeme.wordChar (c : Char) : Lexeme → Lexeme
  | word read => word (read ++ [c])
  | number => number
  | suffix => suffix
  | _ => if c.isDigit then number else word [c]

def Lexeme.doubleQuote : Lexeme → Lexeme
  | word read => if read ∈ rawPrefixes then delimiter [] else literal '"'
  | _ => literal '"'

def Lexeme.singleQuote : Lexeme → Lexeme
  | number => number
  | _ => literal '\''

/-- The tokens of a text as far as brackets and commas go: a comment is a space, of a literal there is the quote,
and a point stands for `->`, `<=`, `>=`, `<=>`, `<<` and the symbol in the name of an operator. -/
def code : Lexeme → string → string
  | _, [] => []
  | .comment, '*' :: '/' :: text => code .space text
  | .comment, _ :: text => code .comment text
  | .literal quote, '\\' :: _ :: text => code (.literal quote) text
  | .literal quote, c :: text => code (if c = quote then .suffix else .literal quote) text
  | .delimiter read, c :: text =>
    code (if c = '(' then .raw (')' :: (read ++ ['"'])) [] else .delimiter (read ++ [c])) text
  | .raw close read, c :: text =>
    code (if close.isSuffixOf (read ++ [c]) then .suffix else .raw close (read ++ [c])) text
  | _, '/' :: '*' :: text => ' ' :: code .comment text
  | _, '/' :: '/' :: _ => []
  | _, '-' :: '>' :: text => '.' :: code .space text
  | _, '-' :: '-' :: text => '.' :: code .space text -- in `-->` there is no arrow
  | _, '<' :: '=' :: '>' :: text => '.' :: code .space text
  | _, '<' :: '=' :: text => '.' :: code .space text
  | _, '>' :: '=' :: text => '.' :: code .space text
  | _, '<' :: '<' :: text => '.' :: code .space text
  | .operator, '>' :: '>' :: text => '.' :: code .space text
  | lexeme, c :: text =>
    if c = '"' then c :: code lexeme.doubleQuote text
    else if c = '\'' then c :: code lexeme.singleQuote text
    else if isWordChar c then
      let lexeme := lexeme.wordChar c
      c :: code (if lexeme = .word "operator".toList ∧ !text.head?.any isWordChar then .operator else lexeme) text
    else if lexeme = .operator ∧ isWhite c then ' ' :: code .operator text
    else if lexeme = .operator ∧ (c = '<' ∨ c = '>' ∨ c = ',') then '.' :: code .space text
    else c :: code .space text

def brackets : List (Char × Char) := [('(', ')'), ('<', '>'), ('[', ']'), ('\x7b', '\x7d')]

structure Scan where
  opened : List Char
  commas : ℕ
  wellNested : Bool

def Scan.next (s : Scan) (c : Char) : Scan :=
  match brackets.lookup c with
  | some close => { s with opened := close :: s.opened }
  | none =>
    if brackets.any (·.2 = c) then
      { s with opened := s.opened.tail, wellNested := s.wellNested && s.opened.head? = some c }
    else if c = ',' ∧ s.opened = [] then { s with commas := s.commas + 1 }
    else s

def scan (text : string) : Scan := (code .space text).foldl Scan.next ⟨[], 0, true⟩

def Balanced (text : string) : Prop := (scan text).wellNested ∧ (scan text).opened = []

instance (text : string) : Decidable (Balanced text) := inferInstanceAs (Decidable (_ ∧ _))

def trim (text : string) : string := (text.dropWhile isWhite).rdropWhile isWhite

/-- A parameter list without parameters. -/
def IsVoid (params : string) : Prop :=
  trim (code .space params) = [] ∨ trim (code .space params) = "void".toList

instance (params : string) : Decidable (IsVoid params) := inferInstanceAs (Decidable (_ ∨ _))

def topCommas (text : string) : ℕ := (scan text).commas

def paramCount (params : string) : ℕ := if IsVoid params then 0 else topCommas params + 1

example : paramCount "F<A,B> f /* a, b */,C c".toList = 2 := by decide +kernel

/-- `ret name(params) trailer` on one line. -/
structure Signature where
  ret : string
  name : string
  params : string
  trailer : string
  name_ne_nil : name ≠ []
  line : ∀ c ∈ ret ++ name ++ '(' :: params ++ ')' :: trailer, Regex.isAny c

def Signature.text (s : Signature) : string := s.ret ++ s.name ++ '(' :: s.params ++ ')' :: s.trailer

/-! ### The parentheses the pattern looks for -/

/-- Behind the first character there are parentheses with nothing but spaces and perhaps `void` in them. -/
def HasBlankParens (text : string) : Prop :=
  ∃ before i w j after, before ≠ [] ∧ (w = "void".toList ∨ w = []) ∧
    text = before ++ '(' :: (List.replicate i ' ' ++ (w ++ (List.replicate j ' ' ++ ')' :: after)))

theorem noParam_iff {text : string} (h : ∀ c ∈ text, Regex.isAny c) :
    (noParamRegex.fullMatch text).isSome ↔ HasBlankParens text := by
  rw [Regex.fullMatch_isSome_iff rfl, noParamRegex]
  simp only [Regex.mem_language_seq, Regex.mem_language_rep_any, Regex.mem_language_rep_char,
    Regex.mem_language_char, Regex.mem_language_opt, Regex.mem_language_group, Regex.mem_language_lits]
  constructor
  · rintro ⟨before, ⟨hne, -⟩, -, ⟨-, rfl, -, ⟨-, ⟨i, rfl⟩, -, ⟨w, hw, -, ⟨-, ⟨j, rfl⟩, -, ⟨-, rfl, after, -, rfl⟩, rfl⟩,
      rfl⟩, rfl⟩, rfl⟩, rfl⟩
    exact ⟨before, i, w, j, after, List.ne_nil_of_length_pos hne, hw, rfl⟩
  · rintro ⟨before, i, w, j, after, hne, hw, rfl⟩
    refine ⟨before, ⟨List.length_pos_iff.2 hne, fun c hc => h c (List.mem_append_left _ hc)⟩, _, ⟨_, rfl, _,
      ⟨_, ⟨i, rfl⟩, _, ⟨w, hw, _, ⟨_, ⟨j, rfl⟩, _, ⟨_, rfl, after, ⟨Nat.zero_le _, fun c hc => h c ?_⟩, rfl⟩, rfl⟩, rfl⟩,
      rfl⟩, rfl⟩, rfl⟩
    simp [hc]

theorem countMethodParams_of_commas {text : string} (h : text.count ',' % 2 ^ 32 ≠ 0) :
    countMethodParams text = (text.count ',' % 2 ^ 32 + 1) % 2 ^ 32 := if_pos (Nat.pos_of_ne_zero h)

theorem countMethodParams_of_no_commas {text : string} (h : text.count ',' % 2 ^ 32 = 0)
    (hline : ∀ c ∈ text, Regex.isAny c) :
    (HasBlankParens text → countMethodParams text = 0) ∧ (¬ HasBlankParens text → countMethodParams text = 1) := by
  have hcount : countMethodParams text = if (noParamRegex.fullMatch text).isSome then 0 else 1 := by
    unfold countMethodParams
    rw [h]; rfl
  rw [hcount, ← noParam_iff hline]
  exact ⟨fun hp => if_pos hp, fun hp => if_neg hp⟩

/-- The counts are the same exactly if all commas are between parameters, and the pattern finds empty
parentheses exactly where the list is empty; the count is a `uint`. -/
theorem countMethodParams_iff (s : Signature) : countMethodParams s.text = paramCount s.params ↔
    if IsVoid s.params then
      s.text.count ',' % 2 ^ 32 = 2 ^ 32 - 1 ∨ s.text.count ',' % 2 ^ 32 = 0 ∧ HasBlankParens s.text
    else
      s.text.count ',' % 2 ^ 32 = topCommas s.params ∧ topCommas s.params < 2 ^ 32 - 1 ∧
        (topCommas s.params = 0 → ¬ HasBlankParens s.text) := by
  rw [paramCount]
  by_cases hcommas : s.text.count ',' % 2 ^ 32 = 0
  · obtain ⟨hblank, hnot⟩ := countMethodParams_of_no_commas hcommas s.line
    by_cases hparens : HasBlankParens s.text
    · rw [hblank hparens, hcommas]
      split_ifs
      · exact iff_of_true rfl (.inr ⟨rfl, hparens⟩)
      · exact iff_of_false id fun h => h.2.2 h.1.symm hparens
    · rw [hnot hparens, hcommas]
      split_ifs
      · refine iff_of_false id ?_
        rintro (h | h)
        exacts [absurd h (by decide), hparens h.2]
      · constructor
        · exact fun h => ⟨by omega, by omega, fun _ => hparens⟩
        · exact fun h => by omega
  · rw [countMethodParams_of_commas hcommas]
    have hlt := Nat.mod_lt (s.text.count ',') (show 0 < 2 ^ 32 by decide)
    split_ifs
    · omega
    · constructor
      · intro h
        have hwrap : s.text.count ',' % 2 ^ 32 + 1 < 2 ^ 32 := by omega
        exact ⟨by omega, by omega, by omega⟩
      · rintro ⟨h, hmax, -⟩
        omega

def pairSignature : Signature where
  ret := "map<K, V> ".toList
  name := "get".toList
  params := []
  trailer := []
  name_ne_nil := by decide
  line := forall_mem_of_all (by decide)

theorem pairSignature_miscounted : ¬ ∀ s : Signature, Balanced s.text → Balanced s.params →
    countMethodParams s.text = paramCount s.params := by
  intro h
  exact absurd (h pairSignature (by decide) (by decide)) (by decide)

end CWorkspace.Stub
