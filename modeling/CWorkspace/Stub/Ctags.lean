import CWorkspace.Lib.RegexLang
import CWorkspace.Stub.Symbols

/-!
# From ctags lines to symbols

A `MethodTag` is a line of a method with its parts. The signature pattern reads the name off it, but what it takes
for the signature begins behind the first `/^` with two spaces and ends at the next brace (`Reads`).
`represents_iff` says for which lists of lines no method is lost on the way to the symbols.
-/

namespace CWorkspace.Stub
open Regex (isAny)

/-- Some text follows the kind `f` and the word `class:`. -/
def IsMethodLine (line : string) : Prop :=
  ∃ pre c post, line = pre ++ ("\tf\tclass:".toList ++ c :: post) ∧ isAny c

/-- A line with a signature and a brace on its pattern. `body` is what follows the brace, up to the end of
the line. -/
structure MethodTag where
  name : string
  path : string
  indent : string
  signature : string
  body : string
  name_ne : name ≠ []
  name_any : ∀ a ∈ name, isAny a ∧ a ≠ '\t'
  path_any : ∀ a ∈ path, isAny a
  indent_blank : ∀ a ∈ indent, a = ' ' ∨ a = '\t'
  signature_ne : signature ≠ []
  signature_starts : signature.head?.any fun a => a ≠ ' ' ∧ a ≠ '\t'
  signature_any : ∀ a ∈ signature, isAny a
  body_any : body.head?.any isAny

/-- All behind the name and its tab. -/
def MethodTag.rest (t : MethodTag) : string :=
  t.path ++ '\t' :: ("/^".toList ++ (t.indent ++ (t.signature ++ '\x7b' :: t.body)))

def MethodTag.line (t : MethodTag) : string := t.name ++ '\t' :: t.rest

theorem isMethodLine_iff (line : string) : (funcLineRegex.search line).isSome ↔ IsMethodLine line := by
  have hways : ∀ b rest, funcLineRegex.ways ⟨b, rest, []⟩ ≠ [] ↔
      ∃ c post, rest = "\tf\tclass:".toList ++ c :: post ∧ isAny c := by
    intro b rest
    rw [funcLineRegex, Regex.ways_seq_lits]
    constructor
    · intro h
      split_ifs at h with hpre
      · obtain ⟨post, hpost⟩ := hpre
        rw [Regex.ways_rep_any_ne_nil, Regex.skip_rest, ← hpost, List.drop_left] at h
        cases post with
        | nil => exact absurd h (by simp)
        | cons c post => exact ⟨c, post, hpost.symm, by simpa using h⟩
      · exact absurd rfl h
    · rintro ⟨c, post, rfl, hc⟩
      rw [if_pos ⟨_, rfl⟩, Regex.ways_rep_any_ne_nil, Regex.skip_rest, List.drop_left]
      simpa using hc
  rw [Regex.search_isSome_iff]
  constructor
  · rintro ⟨pre, rest, rfl, h⟩
    obtain ⟨c, post, rfl, hc⟩ := (hways _ _).1 h
    exact ⟨pre, c, post, rfl, hc⟩
  · rintro ⟨pre, c, post, rfl, hc⟩
    exact ⟨pre, _, rfl, (hways _ _).2 ⟨c, post, rfl, hc⟩⟩

/-- A text behind a name and its tab in which a signature is found: between the first `/^  ` and the first brace,
each of them behind one character at least. -/
structure Reading where
  before : string
  signature : string
  after : string
  before_ne : before ≠ []
  before_any : ∀ a ∈ before, isAny a
  before_first : First "/^  ".toList before.tail
  signature_ne : signature ≠ []
  signature_any : ∀ a ∈ signature, isAny a
  signature_first : '\x7b' ∉ signature.tail
  after_any : after.head?.any isAny

def Reading.text (r : Reading) : string := r.before ++ ("/^  ".toList ++ (r.signature ++ '\x7b' :: r.after))

def Reads (rest signature : string) : Prop := ∃ r : Reading, r.text = rest ∧ r.signature = signature

/-- The parts of the signature pattern: from the brace on, from the signature on, and so forth. -/
def fromBrace : Regex := .seq (.char '\x7b') (.rep false 1 .any)
def fromSignature : Regex := .seq (.group 2 (.rep true 1 .any)) fromBrace
def fromPattern : Regex := .seq (.lits "/^  ".toList) fromSignature
def fromPath : Regex := .seq (.rep true 1 .any) fromPattern
def fromTab : Regex := .seq (.char '\t') fromPath
def fromName : Regex := .seq (.group 1 (.rep true 1 .any)) fromTab

theorem signatureRegex_eq : signatureRegex = .seq .bol fromName := rfl

section
variable (r : Reading) (caps : List (ℕ × List Char))

theorem fromBrace_head : ∃ m, (fromBrace.ways ⟨false, '\x7b' :: r.after, caps⟩).head? = some m ∧ m.caps = caps := by
  have hne : (Regex.rep false 1 Regex.any).ways ⟨false, r.after, caps⟩ ≠ [] :=
    (Regex.ways_rep_any_ne_nil _ _).2 r.after_any
  obtain ⟨m, ms, hm⟩ := List.exists_cons_of_ne_nil hne
  rw [fromBrace, Regex.ways_seq_char, hm]
  exact ⟨m, rfl, Regex.caps_of_mem_rep_any (hm ▸ List.mem_cons_self)⟩

theorem fromSignature_head : ∃ m,
    (fromSignature.ways ⟨false, r.signature ++ '\x7b' :: r.after, caps⟩).head? = some m ∧
      m.caps = (2, r.signature) :: caps := by
  obtain ⟨m, hm, hcaps⟩ := fromBrace_head r ((2, r.signature) :: caps)
  refine ⟨m, ?_, hcaps⟩
  rw [← hm]
  refine Regex.head?_group_lazy fromBrace rfl 2 r.signature_ne r.signature_any ?_
    (List.ne_nil_of_mem (List.mem_of_mem_head? hm))
  intro i caps hpos hi
  refine Regex.ways_seq_char_of_ne _ ?_
  rw [List.drop_append_of_le_length (Nat.le_of_lt hi), List.drop_eq_getElem_cons hi]
  have hmem : r.signature[i] ∈ r.signature.tail := by
    rw [List.mem_iff_getElem]
    exact ⟨i - 1, by rw [List.length_tail]; omega, by rw [List.getElem_tail]; congr 1; omega⟩
  exact fun heq => r.signature_first (Option.some.inj heq ▸ hmem)

theorem fromPattern_head : ∃ m, (fromPattern.ways
      ⟨false, "/^  ".toList ++ (r.signature ++ '\x7b' :: r.after), caps⟩).head? = some m ∧
    m.caps = (2, r.signature) :: caps := by
  have hskip : MatchState.skip ⟨false, "/^  ".toList ++ (r.signature ++ '\x7b' :: r.after), caps⟩
      "/^  ".toList.length = ⟨false, r.signature ++ '\x7b' :: r.after, caps⟩ :=
    Regex.skip_eq rfl (by decide)
  rw [fromPattern, Regex.ways_seq_lits, if_pos (List.prefix_append _ _), hskip]
  exact fromSignature_head r caps

theorem fromPath_head : ∃ m, (fromPath.ways ⟨false, r.text, caps⟩).head? = some m ∧
    m.caps = (2, r.signature) :: caps := by
  obtain ⟨m, hm, hcaps⟩ := fromPattern_head r caps
  refine ⟨m, ?_, hcaps⟩
  rw [← hm]
  refine Regex.head?_seq_lazy fromPattern rfl r.before_ne r.before_any ?_
    (List.ne_nil_of_mem (List.mem_of_mem_head? hm))
  intro i hpos hi
  obtain ⟨c, before, hbefore⟩ := List.exists_cons_of_ne_nil r.before_ne
  have hfirst := r.before_first
  rw [hbefore] at hfirst hi ⊢
  obtain ⟨i, rfl⟩ := Nat.exists_eq_succ_of_ne_zero (Nat.ne_of_gt hpos)
  rw [List.length_cons, Nat.succ_lt_succ_iff] at hi
  rw [fromPattern, Regex.ways_seq_lits, if_neg]
  rw [List.cons_append, List.drop_succ_cons, ← List.append_assoc]
  exact hfirst.not_prefix_drop _ hi

variable {name : string} (hname : name ≠ []) (hany : ∀ a ∈ name, isAny a ∧ a ≠ '\t')
include hname hany

theorem fromName_head : ∃ m, (fromName.ways ⟨true, name ++ '\t' :: r.text, caps⟩).head? = some m ∧
    m.caps = (2, r.signature) :: (1, name) :: caps := by
  obtain ⟨m, hm, hcaps⟩ := fromPath_head r ((1, name) :: caps)
  refine ⟨m, ?_, hcaps⟩
  have htab : ∀ caps u, fromTab.ways ⟨false, '\t' :: u, caps⟩ = fromPath.ways ⟨false, u, caps⟩ :=
    fun caps u => Regex.ways_seq_char _ _ _ _ _
  rw [← hm, ← htab]
  refine Regex.head?_group_lazy fromTab rfl 1 hname (fun a ha => (hany a ha).1) ?_
    (by rw [htab]; exact List.ne_nil_of_mem (List.mem_of_mem_head? hm))
  intro i caps _ hi
  refine Regex.ways_seq_char_of_ne _ ?_
  rw [List.drop_append_of_le_length (Nat.le_of_lt hi), List.drop_eq_getElem_cons hi]
  exact fun heq => (hany _ (List.getElem_mem hi)).2 (Option.some.inj heq)

/-- Where a signature is found, the groups of the pattern are the name and this signature. -/
theorem search_reading : ∃ m, signatureRegex.search (name ++ '\t' :: r.text) = some m ∧
    m.caps = [(2, r.signature), (1, name)] := by
  obtain ⟨m, hm, hcaps⟩ := fromName_head r [] hname hany
  refine ⟨m, Regex.search_of_start ?_, hcaps⟩
  rw [← hm, signatureRegex_eq]
  show ([_].flatMap fromName.ways).head? = _
  rw [List.flatMap_singleton]

end

/-- Where there is a `/^  ` with a brace behind it there are a first one and a first brace. -/
theorem exists_reading {before signature after : string} (hbefore : before ≠ []) (hbefore' : ∀ a ∈ before, isAny a)
    (hsig : signature ≠ []) (hsig' : ∀ a ∈ signature, isAny a) (hafter : after.head?.any isAny) :
    ∃ r : Reading, r.text = before ++ ("/^  ".toList ++ (signature ++ '\x7b' :: after)) := by
  obtain ⟨c, before, rfl⟩ := List.exists_cons_of_ne_nil hbefore
  obtain ⟨hc, hbefore'⟩ := List.forall_mem_cons.1 hbefore'
  have hpat : "/^  ".toList ≠ [] ∧ ∀ a ∈ "/^  ".toList, isAny a := ⟨by decide, forall_mem_of_all (by decide)⟩
  obtain ⟨x, y, heq, hfirst⟩ := exists_first hpat.1
    (⟨before, signature ++ '\x7b' :: after, rfl⟩ : "/^  ".toList <:+: before ++ "/^  ".toList ++ _)
  have hlen := hfirst.length_le heq
  -- what is between the first `/^  ` and the brace
  obtain ⟨between, hbetween⟩ : x ++ "/^  ".toList <+: before ++ "/^  ".toList :=
    List.prefix_of_prefix_length_le ⟨y, heq.symm⟩ (List.prefix_append _ _)
      (by simp only [List.length_append]; omega)
  rw [← hbetween, List.append_assoc, List.append_cancel_left_eq] at heq
  subst heq
  have hx : ∀ a ∈ x ++ "/^  ".toList ++ between, isAny a := by
    rw [hbetween, List.forall_mem_append]
    exact ⟨hbefore', hpat.2⟩
  obtain ⟨⟨hx, -⟩, hbetween'⟩ : ((∀ a ∈ x, isAny a) ∧ _) ∧ ∀ a ∈ between, isAny a := by
    simpa only [List.forall_mem_append] using hx
  obtain ⟨d, rest, hrest⟩ := List.exists_cons_of_ne_nil (l := between ++ signature) (by simp [hsig])
  have hany : ∀ a ∈ d :: rest, isAny a := hrest ▸ List.forall_mem_append.2 ⟨hbetween', hsig'⟩
  obtain ⟨sig, tail, hbrace, hfree⟩ : ∃ sig tail, rest ++ '\x7b' :: after = sig ++ '\x7b' :: tail ∧ '\x7b' ∉ sig :=
    List.eq_append_cons_of_mem (by simp)
  have htail : tail.head?.any isAny ∧ ∀ a ∈ sig, a ∈ rest := by
    rcases List.append_eq_append_iff.1 hbrace with ⟨w, rfl, hw⟩ | ⟨w, rfl, hw⟩
    · rcases List.cons_eq_append_iff.1 hw with ⟨rfl, hw⟩ | ⟨w, rfl, -⟩
      · obtain rfl := (List.cons.inj hw).2
        exact ⟨hafter, by simp⟩
      · exact absurd hfree (by simp)
    · rcases List.cons_eq_append_iff.1 hw with ⟨rfl, hw⟩ | ⟨w, rfl, rfl⟩
      · obtain rfl := (List.cons.inj hw).2
        exact ⟨hafter, by simp⟩
      · refine ⟨?_, fun a => List.mem_append_left _⟩
        cases w with
        | nil => rfl
        | cons e w => exact hany e (by simp)
  refine ⟨⟨c :: x, d :: sig, tail, List.cons_ne_nil _ _, List.forall_mem_cons.2 ⟨hc, hx⟩, hfirst,
    List.cons_ne_nil _ _, fun a ha => ?_, hfree, htail.1⟩, ?_⟩
  · exact hany a (List.cons_subset_cons _ htail.2 ha)
  · have hsame : between ++ (signature ++ '\x7b' :: after) = d :: (sig ++ '\x7b' :: tail) := by
      rw [← List.append_assoc, hrest, List.cons_append, hbrace]
    rw [Reading.text, List.cons_append, List.cons_append, ← hsame, ← List.append_assoc x, ← List.append_assoc,
      hbetween, List.append_assoc, List.cons_append]

section
variable {name : string} (hname : name ≠ []) (hany : ∀ a ∈ name, isAny a ∧ a ≠ '\t')
include hname hany

/-- The pattern matches only where a signature is found. -/
theorem reading_of_search {rest : string} (h : (signatureRegex.search (name ++ '\t' :: rest)).isSome) :
    ∃ r : Reading, r.text = rest := by
  obtain ⟨pre, line, heq, hways⟩ := (Regex.search_isSome_iff _ _).1 h
  have hpre : pre = [] := by
    by_contra hne
    have hstart : pre.isEmpty = false := by rwa [List.isEmpty_eq_false_iff]
    rw [hstart] at hways
    exact hways rfl
  subst hpre
  rw [List.nil_append] at heq
  subst heq
  obtain ⟨m, hm⟩ := List.exists_mem_of_ne_nil _ hways
  obtain ⟨start, hstart, hm⟩ := List.mem_flatMap.1 hm
  obtain rfl := List.mem_singleton.1 hstart
  obtain ⟨w, hw, heq⟩ := (Regex.exists_ways_iff fromName (by rfl) _ _).1 ⟨m, hm, rfl⟩
  simp only [fromName, fromTab, fromPath, fromPattern, fromSignature, fromBrace, Regex.mem_language_seq,
    Regex.mem_language_group, Regex.mem_language_rep_any, Regex.mem_language_char, Regex.mem_language_lits] at hw
  obtain ⟨name', ⟨-, hname'⟩, -, ⟨-, rfl, -, ⟨before, ⟨hne, hbefore⟩, -, ⟨-, rfl, -, ⟨signature, ⟨hsig, hsig'⟩, -,
    ⟨-, rfl, after, ⟨hafter, hafter'⟩, rfl⟩, rfl⟩, rfl⟩, rfl⟩, rfl⟩, rfl⟩ := hw
  -- the pattern may read the name to a later tab, but there is all that it needs behind the first one
  have htext : name ++ '\t' :: rest =
      name' ++ '\t' :: (before ++ ("/^  ".toList ++ (signature ++ '\x7b' :: (after ++ m.rest)))) := by
    refine heq.trans ?_
    simp
  obtain ⟨front, hfront, hany', rfl⟩ : ∃ front, front ≠ [] ∧ (∀ a ∈ front, isAny a) ∧
      rest = front ++ ("/^  ".toList ++ (signature ++ '\x7b' :: (after ++ m.rest))) := by
    have hbefore' : before ≠ [] := List.length_pos_iff.1 hne
    rcases List.append_eq_append_iff.1 htext with ⟨w, rfl, hw⟩ | ⟨w, rfl, hw⟩
    · rcases List.cons_eq_append_iff.1 hw with ⟨rfl, hw⟩ | ⟨w, rfl, rfl⟩
      · exact ⟨before, hbefore', hbefore, (List.cons.inj hw).2⟩
      · refine ⟨w ++ '\t' :: before, by simp, ?_, by simp⟩
        rw [List.forall_mem_append, List.forall_mem_cons] at hname' ⊢
        exact ⟨hname'.2.2, by decide, hbefore⟩
    · rcases List.cons_eq_append_iff.1 hw with ⟨rfl, hw⟩ | ⟨w, rfl, -⟩
      · exact ⟨before, hbefore', hbefore, (List.cons.inj hw).2.symm⟩
      · exact absurd rfl (hany '\t' (by simp)).2
  refine exists_reading hfront hany' (List.length_pos_iff.1 hsig) hsig' ?_
  obtain ⟨a, after, rfl⟩ := List.exists_cons_of_ne_nil (List.length_pos_iff.1 hafter)
  exact hafter' a List.mem_cons_self

end

namespace MethodTag
variable (t : MethodTag)

/-- With the indentation the pattern asks for, and without a brace before that of the body. -/
structure Ordinary : Prop where
  indent : t.indent = "  ".toList
  path : ¬ "/^  ".toList <:+: t.path
  signature : '\x7b' ∉ t.signature

variable {t}

theorem Ordinary.reads (h : t.Ordinary) : Reads t.rest t.signature := by
  have hbefore : ∀ a ∈ t.path ++ ['\t'], isAny a := List.forall_mem_append.2 ⟨t.path_any, List.forall_mem_singleton.2 rfl⟩
  have hfirst : First "/^  ".toList (t.path ++ ['\t']).tail := by
    intro hin
    have hfirst : First "/^  ".toList (t.path ++ ['\t']) :=
      (first_append_cons (by decide) _ _).2 ⟨h.path, first_nil (by decide)⟩
    refine hfirst (hin.trans ?_)
    obtain ⟨c, path, hpath⟩ := List.exists_cons_of_ne_nil (l := t.path ++ ['\t']) (by simp)
    rw [hpath]
    exact (List.suffix_cons c _).isInfix
  refine ⟨⟨t.path ++ ['\t'], t.signature, t.body, by simp, hbefore, hfirst, t.signature_ne, t.signature_any,
    fun hmem => h.signature (List.mem_of_mem_tail hmem), t.body_any⟩, ?_, rfl⟩
  rw [Reading.text, rest, h.indent]
  simp

theorem lineName_of_reads {signature : string} (h : Reads t.rest signature) :
    lineName t.line = t.name ∧ lineSignature t.line = signature := by
  obtain ⟨r, hr, rfl⟩ := h
  obtain ⟨m, hm, hcaps⟩ := search_reading r t.name_ne t.name_any
  rw [hr] at hm
  rw [lineName, lineSignature, line, hm, Regex.str, Regex.str, Option.bind_some, Option.bind_some, hcaps]
  exact ⟨rfl, rfl⟩

/-- A line goes by its name if a signature is found in it, else by the empty one. -/
theorem lineName_eq_iff {name : string} (hname : name ≠ []) :
    lineName t.line = name ↔ t.name = name ∧ Reads t.rest (lineSignature t.line) := by
  constructor
  · intro h
    have hfound : signatureRegex.search (t.name ++ '\t' :: t.rest) ≠ none := fun hnone =>
      hname (h.symm.trans ((lineName_eq_nil_iff _).2 hnone))
    obtain ⟨r, hr⟩ := reading_of_search t.name_ne t.name_any (Option.isSome_iff_ne_none.2 hfound)
    obtain ⟨hline, hsig⟩ := lineName_of_reads ⟨r, hr, rfl⟩
    exact ⟨hline.symm.trans h, r, hr, hsig.symm⟩
  · rintro ⟨rfl, h⟩
    exact (lineName_of_reads h).1

end MethodTag

/-! ### The symbols of a class -/

/-- With the step past the first method line: `std::next` from the beginning of no lines is undefined. -/
def parseAllMethodSymbolsFromCtags? (lines : List string) : Option MethodSymbols :=
  if methodLines lines = [] then none else some (parseAllMethodSymbolsFromCtags lines)

theorem isMethodLine_of_mem {lines : List string} {line : string} (h : line ∈ methodLines lines) :
    line ∈ lines ∧ IsMethodLine line := by
  obtain ⟨hmem, hkept⟩ := List.mem_filter.1 h
  rw [Bool.and_eq_true] at hkept
  exact ⟨hmem, (isMethodLine_iff line).1 hkept.1⟩

/-- What `ctags` prints for a class: the line of a method, or of something else. -/
inductive ClassLine
  | method (t : MethodTag) (isMethod : IsMethodLine t.line)
  | other (line : string) (notMethod : ¬ IsMethodLine line)

def ClassLine.line : ClassLine → string
  | method t _ => t.line
  | other line _ => line

def Mocked (className : string) (t : MethodTag) : Prop := t.name ≠ className ∧ t.name.head? ≠ some '~'

/-- Every method to be mocked is among the symbols, and without method lines there are none. -/
def Represents (className : string) (lines : List ClassLine) : Prop :=
  ∃ symbols, parseAllMethodSymbolsFromCtags? (lines.map ClassLine.line) = some symbols ∧
    (∀ t h, .method t h ∈ lines → Mocked className t → (t.name, t.signature) ∈ symbols.entries) ∧
    ((∀ t h, .method t h ∉ lines) → symbols.entries = [])

def keptTags (lines : List ClassLine) : List MethodTag :=
  lines.filterMap fun
    | .method t _ => if (dtocRegex.search t.line).isSome then none else some t
    | .other _ _ => none

/-- Of the tags with the name the first one in which a signature is found has this one. -/
def FirstReads (tags : List MethodTag) (name signature : string) : Prop :=
  ∃ before first after, tags = before ++ first :: after ∧ first.name = name ∧ Reads first.rest signature ∧
    ∀ u ∈ before, u.name = name → ∀ other, ¬ Reads u.rest other

theorem find?_tags_iff {tags : List MethodTag} {name signature : string} (hname : name ≠ []) :
    ((tags.map MethodTag.line).find? fun line => lineName line = name).map lineSignature = some signature ↔
      FirstReads tags name signature := by
  rw [List.find?_map, Option.map_map, Option.map_eq_some_iff]
  simp only [List.find?_eq_some_iff_append, Function.comp_apply, decide_eq_true_eq, Bool.not_eq_true',
    decide_eq_false_iff_not, MethodTag.lineName_eq_iff hname]
  constructor
  · rintro ⟨first, ⟨⟨hfirst, hreads⟩, before, after, heq, hbefore⟩, rfl⟩
    refine ⟨before, first, after, heq, hfirst, hreads, fun u hu hname' other hother => hbefore u hu ⟨hname', ?_⟩⟩
    rwa [(MethodTag.lineName_of_reads hother).2]
  · rintro ⟨before, first, after, heq, hfirst, hreads, hbefore⟩
    obtain rfl := (MethodTag.lineName_of_reads hreads).2
    exact ⟨first, ⟨⟨hfirst, hreads⟩, before, after, heq, fun u hu h => hbefore u hu h.1 _ h.2⟩, rfl⟩

theorem methodLines_eq (lines : List ClassLine) :
    methodLines (lines.map ClassLine.line) = (keptTags lines).map MethodTag.line := by
  induction lines with
  | nil => rfl
  | cons l lines ih =>
    rw [List.map_cons, methodLines, List.filter_cons, keptTags, List.filterMap_cons]
    cases l with
    | method t h =>
      have hfunc : (funcLineRegex.search t.line).isSome = true := (isMethodLine_iff _).2 h
      cases hdtor : (dtocRegex.search t.line).isSome <;> simp only [ClassLine.line, hfunc, hdtor]
      · exact congrArg (t.line :: ·) ih
      · exact ih
    | other line h =>
      have hfunc : (funcLineRegex.search line).isSome = false := by
        rw [Bool.eq_false_iff]
        exact fun hsome => h ((isMethodLine_iff _).1 hsome)
      simp only [ClassLine.line, hfunc, Bool.false_and]
      exact ih

section
variable (className : string) (lines : List ClassLine)

/-- No method is lost exactly if some method line passes the filters and of each method to be mocked the
signature is the first one found, under its name, behind the first line that passes. -/
theorem represents_iff : Represents className lines ↔ keptTags lines ≠ [] ∧
    ∀ t h, .method t h ∈ lines → Mocked className t → FirstReads (keptTags lines).tail t.name t.signature := by
  have hentries : ∀ t : MethodTag, (t.name, t.signature) ∈
      (parseAllMethodSymbolsFromCtags (lines.map ClassLine.line)).entries ↔
        FirstReads (keptTags lines).tail t.name t.signature := by
    intro t
    rw [mem_symbols_iff, Method, symbolLines, methodLines_eq, ← List.map_tail, find?_tags_iff t.name_ne]
  unfold Represents parseAllMethodSymbolsFromCtags?
  simp only [methodLines_eq, List.map_eq_nil_iff, ← hentries]
  constructor
  · rintro ⟨symbols, hparse, hmocked, -⟩
    split_ifs at hparse with hnil
    obtain rfl := Option.some.inj hparse
    exact ⟨hnil, hmocked⟩
  · rintro ⟨hne, hmocked⟩
    rw [if_neg hne]
    refine ⟨_, rfl, hmocked, fun hnone => ?_⟩
    obtain ⟨t, ht⟩ := List.exists_mem_of_ne_nil _ hne
    obtain ⟨l, hl, hkept⟩ := List.mem_filterMap.1 ht
    cases l with
    | method u h => exact absurd hl (hnone u h)
    | other line h => cases hkept

end

def startTag : MethodTag where
  name := "start".toList
  path := "utils/pipe/Pipe.h".toList
  indent := "  ".toList
  signature := "ReturnType start(const T &initValue) ".toList
  body := "$/;\"\tf\tclass:Pipe".toList
  name_ne := by decide
  name_any := forall_mem_of_all (by decide)
  path_any := forall_mem_of_all (by decide)
  indent_blank := forall_mem_of_all (by decide)
  signature_ne := by decide
  signature_starts := by decide
  signature_any := forall_mem_of_all (by decide)
  body_any := by decide

def pipeTag : MethodTag := { startTag with
  name := "Pipe".toList
  signature := "Pipe() ".toList
  name_ne := by decide
  name_any := forall_mem_of_all (by decide)
  signature_ne := by decide
  signature_starts := by decide
  signature_any := forall_mem_of_all (by decide) }

theorem isMethodLine_startTag : IsMethodLine startTag.line :=
  ⟨startTag.name ++ '\t' :: (startTag.path ++ '\t' :: ("/^".toList ++ (startTag.indent ++
    (startTag.signature ++ '\x7b' :: "$/;\"".toList)))), 'P', "ipe".toList, by decide, rfl⟩

theorem isMethodLine_pipeTag : IsMethodLine pipeTag.line :=
  ⟨pipeTag.name ++ '\t' :: (pipeTag.path ++ '\t' :: ("/^".toList ++ (pipeTag.indent ++
    (pipeTag.signature ++ '\x7b' :: "$/;\"".toList)))), 'P', "ipe".toList, by decide, rfl⟩

theorem represents_iff_pipe :
    Represents "Pipe".toList [.method pipeTag isMethodLine_pipeTag, .method startTag isMethodLine_startTag] := by
  have hkept : keptTags [.method pipeTag isMethodLine_pipeTag, .method startTag isMethodLine_startTag] =
      [pipeTag, startTag] := rfl
  refine (represents_iff _ _).2 ⟨by rw [hkept]; exact List.cons_ne_nil _ _, fun t h ht hmocked => ?_⟩
  rcases List.mem_pair.1 ht with heq | heq
  · exact absurd (congrArg MethodTag.name (ClassLine.method.inj heq)) hmocked.1
  · obtain rfl := ClassLine.method.inj heq
    have hstart : startTag.Ordinary := ⟨rfl, by decide, by decide⟩
    exact ⟨[], startTag, [], by rw [hkept]; rfl, rfl, hstart.reads, fun u hu => absurd hu List.not_mem_nil⟩

theorem start_lost : ¬ ∀ className lines, Represents className lines := by
  intro h
  obtain ⟨symbols, hparse, hmocked, -⟩ := h "Pipe".toList [.method startTag isMethodLine_startTag]
  have hempty : parseAllMethodSymbolsFromCtags
      ([.method startTag isMethodLine_startTag].map ClassLine.line) = ∅ := by
    rw [parseAllMethodSymbolsFromCtags, symbolLines, methodLines_eq]
    rfl
  unfold parseAllMethodSymbolsFromCtags? at hparse
  split_ifs at hparse
  rw [← Option.some.inj hparse, hempty] at hmocked
  exact List.not_mem_nil (hmocked startTag isMethodLine_startTag (List.mem_singleton_self _) ⟨by decide, by decide⟩)

end CWorkspace.Stub
