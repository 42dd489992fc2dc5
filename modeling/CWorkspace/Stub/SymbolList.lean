import CWorkspace.Lib.Glob
import CWorkspace.Stub.ShellParams

/-!
# The list of symbols of the shell script

`_parse_all_function_symbols_of_class` (`cpp/scripts/gene-gtest-stub.sh`) puts the names and the signatures of the
methods into one text, with `/` and `$` between them, and expands them outside quotes; the generators of the mock
and of the tests read them back. `round_trip_iff` says when they get what was put in, in whatever directory.
-/

namespace CWorkspace.Stub
open Shell (words isBlank)
open Paths (Tree)

/-! ### The symbols -/

structure MethodSymbol where
  methodName : string
  methodSignature : string
  -- as a name in C++ does
  starts : ∃ c rest, methodName = c :: rest ∧ Shell.isPlain c ∧ isBlank c = false ∧ c ≠ '-' ∧ c ≠ '~'

def METHOD_SEPARATOR : Char := '$'

def METHOD_NAME_SIGNATURE_SEPARATOR : Char := '/'

/-- The words that are added to the array for a line. -/
def itemWords (methodName methodSignature : string) : List string :=
  words (methodName ++ METHOD_NAME_SIGNATURE_SEPARATOR :: (methodSignature ++ [METHOD_SEPARATOR]))

def symbolWords (m : MethodSymbol) : List string := itemWords m.methodName m.methodSignature

def metaDataLines (methods : List MethodSymbol) : List (string × string) :=
  match methods with
  | [] => [([], [])] -- a here-string without text is one empty line
  | methods => methods.map fun m => (m.methodName, m.methodSignature)

/-- What is printed; `expand` puts in the file names, and a name that begins with `~` is left out. -/
def parseAllFunctionSymbolsOfClass (escapes : string → string) (expand : string → List string)
    (methods : List MethodSymbol) : string :=
  let lines := (metaDataLines methods).filter fun line => line.1.head? ≠ some '~'
  echo escapes ((lines.flatMap fun line => itemWords line.1 line.2).flatMap expand)

/-! ### Reading them -/

/-- `IFS=$METHOD_SEPARATOR read -ra`: a separator at the end ends the last field. -/
def readFields (line : string) : List string :=
  let fields := line.splitOn METHOD_SEPARATOR
  if fields.getLast? = some [] then fields.dropLast else fields

/-- `cut -d$METHOD_NAME_SIGNATURE_SEPARATOR -f$n` on a line; without the separator it prints all of it. -/
def cutField (n : ℕ) (line : string) : string :=
  let fields := line.splitOn METHOD_NAME_SIGNATURE_SEPARATOR
  if fields.length = 1 then line else fields.getD (n - 1) []

/-- `methodName` and `methodSignature`, as both generators have them for each symbol. -/
def readSymbols (escapes : string → string) (methodSymbols : string) : List (string × string) :=
  (textLines methodSymbols).flatMap fun line => (readFields line).map fun symbol =>
    (cutField 1 (echo escapes [symbol]), cutField 2 (echo escapes [symbol]))

/-- The names and signatures that are read are those of the methods, up to white space. -/
def RoundTrip (escapes : string → string) (expand : string → List string) (methods : List MethodSymbol) : Prop :=
  (readSymbols escapes (parseAllFunctionSymbolsOfClass escapes expand methods)).map
      (fun m => (words m.1, words m.2)) =
    methods.map fun m => (words m.methodName, words m.methodSignature)

/-! ### Where the symbols end -/

def symbolsIn (text : string) : List string := (textLines text).flatMap readFields

theorem readFields_append {u : string} (h : '$' ∉ u) (v : string) : readFields (u ++ '$' :: v) = u :: readFields v := by
  have hfields : (u ++ '$' :: v).splitOn METHOD_SEPARATOR = u :: v.splitOn METHOD_SEPARATOR :=
    List.splitOn_append_cons_self_of_not_mem h _
  have hne := List.splitOn_ne_nil METHOD_SEPARATOR v
  rw [readFields, readFields, hfields, List.getLast?_cons_of_ne_nil hne, List.dropLast_cons_of_ne_nil hne]
  split_ifs <;> rfl

theorem readFields_of_free {u : string} (h : '$' ∉ u) : readFields u = if u = [] then [] else [u] := by
  have hfields : u.splitOn METHOD_SEPARATOR = [u] := List.splitOn_eq_singleton h
  rw [readFields, hfields]
  simp

theorem symbolsIn_line {u : string} (h : '\n' ∉ u) (v : string) :
    symbolsIn (u ++ '\n' :: v) = readFields u ++ symbolsIn v := by
  have hlines : textLines (u ++ '\n' :: v) = u :: textLines v := List.splitOn_append_cons_self_of_not_mem h _
  rw [symbolsIn, hlines]
  rfl

theorem symbolsIn_append {u : string} (h : '$' ∉ u) (h' : '\n' ∉ u) (v : string) :
    symbolsIn (u ++ '$' :: v) = u :: symbolsIn v := by
  have hjoin : ∀ w, '\n' ∉ w → '\n' ∉ u ++ '$' :: w := fun w hw => by simp [h', hw]
  by_cases hv : '\n' ∈ v
  · obtain ⟨w, v, rfl, hw⟩ := List.eq_append_cons_of_mem hv
    have hparts : u ++ '$' :: (w ++ '\n' :: v) = (u ++ '$' :: w) ++ '\n' :: v := by simp
    rw [hparts, symbolsIn_line (hjoin w hw), readFields_append h, symbolsIn_line hw]
    rfl
  · rw [symbolsIn, symbolsIn, textLines_of_line (hjoin v hv), textLines_of_line hv]
    simpa using readFields_append h v

/-- Before a separator there is a symbol at least, and two if there are others in it. -/
theorem length_symbolsIn (b rest : string) :
    (symbolsIn rest).length + 1 ≤ (symbolsIn (b ++ '$' :: rest)).length ∧
      (b.head? ≠ some '\n' → '$' ∈ b ∨ '\n' ∈ b →
        (symbolsIn rest).length + 2 ≤ (symbolsIn (b ++ '$' :: rest)).length) := by
  induction hn : b.length using Nat.strong_induction_on generalizing b with
  | _ n ih =>
    by_cases hmem : '$' ∈ b ∨ '\n' ∈ b
    · -- the first of them
      obtain ⟨u, d, v, rfl, hu, hd⟩ : ∃ u d v, b = u ++ d :: v ∧ ('$' ∉ u ∧ '\n' ∉ u) ∧ (d = '$' ∨ d = '\n') := by
        by_cases hend : '$' ∈ b
        · obtain ⟨u, v, rfl, hu⟩ := List.eq_append_cons_of_mem hend
          by_cases hline : '\n' ∈ u
          · obtain ⟨u, w, rfl, hu'⟩ := List.eq_append_cons_of_mem hline
            exact ⟨u, '\n', w ++ '$' :: v, by simp, ⟨fun h => hu (List.mem_append_left _ h), hu'⟩, .inr rfl⟩
          · exact ⟨u, '$', v, rfl, ⟨hu, hline⟩, .inl rfl⟩
        · obtain ⟨u, v, rfl, hu⟩ := List.eq_append_cons_of_mem (hmem.resolve_left hend)
          exact ⟨u, '\n', v, rfl, ⟨fun h => hend (List.mem_append_left _ h), hu⟩, .inr rfl⟩
      have hv := (ih v.length (by rw [← hn]; simp; omega) v rfl).1
      rw [List.append_assoc, List.cons_append]
      rcases hd with rfl | rfl
      · rw [symbolsIn_append hu.1 hu.2, List.length_cons]
        exact ⟨by omega, fun _ _ => by omega⟩
      · rw [symbolsIn_line hu.2, List.length_append]
        refine ⟨by omega, fun hhead _ => ?_⟩
        rw [readFields_of_free hu.1, if_neg (by rintro rfl; exact hhead rfl), List.length_singleton]
        omega
    · rw [not_or] at hmem
      rw [symbolsIn_append hmem.1 hmem.2]
      exact ⟨le_rfl, fun _ h => absurd h (not_or.2 hmem)⟩

section
variable {bodies : List string}

theorem symbolsIn_bodies (h : ∀ b ∈ bodies, '$' ∉ b ∧ '\n' ∉ b) :
    symbolsIn (bodies.flatMap (· ++ ['$'])) = bodies := by
  induction bodies with
  | nil => rfl
  | cons b bodies ih =>
    obtain ⟨hb, hbodies⟩ := List.forall_mem_cons.1 h
    rw [List.flatMap_cons, List.append_assoc, List.singleton_append, symbolsIn_append hb.1 hb.2, ih hbodies]

theorem length_le_symbolsIn (bodies : List string) :
    bodies.length ≤ (symbolsIn (bodies.flatMap (· ++ ['$']))).length := by
  induction bodies with
  | nil => exact Nat.zero_le _
  | cons b bodies ih =>
    rw [List.flatMap_cons, List.append_assoc, List.singleton_append, List.length_cons]
    have := (length_symbolsIn b (bodies.flatMap (· ++ ['$']))).1
    omega

/-- If no more symbols are read than have been put in, none had a separator in it. -/
theorem free_of_length (hhead : ∀ b ∈ bodies, b.head? ≠ some '\n')
    (hlen : (symbolsIn (bodies.flatMap (· ++ ['$']))).length ≤ bodies.length) :
    ∀ b ∈ bodies, '$' ∉ b ∧ '\n' ∉ b := by
  induction bodies with
  | nil => simp
  | cons b bodies ih =>
    obtain ⟨hb, hbodies⟩ := List.forall_mem_cons.1 hhead
    rw [List.flatMap_cons, List.append_assoc, List.singleton_append, List.length_cons] at hlen
    obtain ⟨hone, htwo⟩ := length_symbolsIn b (bodies.flatMap (· ++ ['$']))
    have hle := length_le_symbolsIn bodies
    refine List.forall_mem_cons.2 ⟨?_, ih hbodies (by omega)⟩
    by_contra hmem
    have := htwo hb (by tauto)
    omega

end

def spaced : List string → List string
  | [] => []
  | b :: bodies => b :: bodies.map (' ' :: ·)

theorem length_spaced (bodies : List string) : (spaced bodies).length = bodies.length := by
  cases bodies <;> simp [spaced]

theorem map_spaced {γ : Type*} {f : string → γ} {bodies : List string} (h : ∀ b ∈ bodies, f (' ' :: b) = f b) :
    (spaced bodies).map f = bodies.map f := by
  cases bodies with
  | nil => rfl
  | cons b bodies =>
    rw [spaced, List.map_cons, List.map_cons, List.map_map]
    exact congrArg (f b :: ·) (List.map_congr_left fun c hc => h c (List.mem_cons_of_mem _ hc))

theorem forall_mem_spaced {P : string → Prop} {bodies : List string} (h : ∀ b, P (' ' :: b) ↔ P b) :
    (∀ b ∈ spaced bodies, P b) ↔ ∀ b ∈ bodies, P b := by
  cases bodies with
  | nil => rfl
  | cons b bodies => simp [spaced, h]

theorem mem_spaced {bodies : List string} {s : string} (h : s ∈ spaced bodies) :
    s ∈ bodies ∨ ∃ b ∈ bodies, s = ' ' :: b := by
  cases bodies with
  | nil => exact absurd h List.not_mem_nil
  | cons b bodies =>
    rcases List.mem_cons.1 h with rfl | h
    · exact .inl List.mem_cons_self
    · obtain ⟨c, hc, rfl⟩ := List.mem_map.1 h
      exact .inr ⟨c, List.mem_cons_of_mem _ hc, rfl⟩

theorem intercalate_bodies (bodies : List string) :
    [' '].intercalate (bodies.map (· ++ ['$'])) = (spaced bodies).flatMap (· ++ ['$']) := by
  cases bodies with
  | nil => rfl
  | cons b bodies =>
    induction bodies generalizing b with
    | nil => simp [spaced]
    | cons c bodies ih =>
      rw [List.map_cons, List.intercalate_cons_of_ne_nil (by simp), ih]
      simp [spaced]

/-- The words of a symbol from those of the name and of the signature. -/
inductive Joined : List string → List string → List string → Prop
  | one (before : List string) (a z : string) :
    Joined (before ++ [a ++ '/' :: (z ++ ['$'])]) (before ++ [a]) [z]
  | more (before : List string) (a b : string) (after : List string) (z : string) :
    Joined (before ++ (a ++ '/' :: b) :: (after ++ [z ++ ['$']])) (before ++ [a]) (b :: (after ++ [z]))

namespace Joined
variable {ws name signature : List string}

def body (name signature : List string) : string :=
  [' '].intercalate name ++ '/' :: [' '].intercalate signature

theorem text (h : Joined ws name signature) : [' '].intercalate ws = body name signature ++ ['$'] := by
  cases h with
  | one before a z => rw [Shell.intercalate_joined]; simp [body]
  | more before a b after z =>
    have hlast := Shell.intercalate_joined (b :: after) z [] '$' []
    simp only [List.cons_append, List.intercalate_singleton] at hlast
    rw [Shell.intercalate_joined, hlast]
    simp [body]

theorem not_mem_body {c : Char} (hspace : c ≠ ' ') (hslash : c ≠ '/') (h : ∀ w ∈ name ++ signature, c ∉ w) :
    c ∉ body name signature := by
  rw [List.forall_mem_append] at h
  simp [body, hslash, Shell.not_mem_intercalate hspace h.1, Shell.not_mem_intercalate hspace h.2]

end Joined

/-- The words of `s`, with empty ones perhaps among them. -/
structure Cut (s : string) (part : List string) : Prop where
  words_eq : part.flatMap words = words s
  mem : ∀ w ∈ part, ∀ c ∈ w, isBlank c = false ∧ c ∈ s

theorem Cut.blank_free {s : string} {part : List string} (h : Cut s part) :
    ∀ w ∈ part, ∀ c ∈ w, isBlank c = false :=
  fun w hw c hc => (h.mem w hw c hc).1

theorem Cut.not_mem {s : string} {part : List string} (h : Cut s part) {c : Char} (hc : c ∉ s) : ∀ w ∈ part, c ∉ w :=
  fun w hw hmem => hc (h.mem w hw c hmem).2

theorem Cut.snoc {s a : string} {before : List string} (hwords : words s = before ++ words a) (hsuf : a <:+ s)
    (ha : ∀ c ∈ a, isBlank c = false) : Cut s (before ++ [a]) := by
  have hmem : ∀ w ∈ before, w ∈ words s := fun w hw => hwords ▸ List.mem_append_left _ hw
  have hbefore : before.flatMap words = before := Shell.flatMap_words hmem
  refine ⟨by simp [hwords, hbefore], fun w hw c hc => ?_⟩
  rcases List.mem_append.1 hw with hw | hw
  · exact Shell.mem_of_mem_words (hmem w hw) c hc
  · rw [List.mem_singleton.1 hw] at hc
    exact ⟨ha c hc, hsuf.subset hc⟩

theorem Cut.head {s b : string} {part : List string} (h : Cut s (words b ++ part)) (hb : ∀ c ∈ b, isBlank c = false) :
    Cut s (b :: part) := by
  rw [Shell.words_of_blank_free hb] at h
  split_ifs at h with hnil
  · subst hnil
    exact ⟨h.words_eq, List.forall_mem_cons.2 ⟨fun c hc => absurd hc List.not_mem_nil, h.mem⟩⟩
  · exact h

theorem exists_joined (m : MethodSymbol) : ∃ name signature, Joined (symbolWords m) name signature ∧
    Cut m.methodName name ∧ Cut m.methodSignature signature := by
  obtain ⟨before, a, b, after, hws, ⟨hname, hsufa, ha⟩, hsig, -, hb⟩ :=
    Shell.exists_joined_word m.methodName (m.methodSignature ++ ['$']) (c := '/') (by rfl)
  obtain ⟨start, z, z', rest, hsig', ⟨hstart, hsufz, hz⟩, hnil, hprez, -⟩ :=
    Shell.exists_joined_word m.methodSignature [] (c := '$') (by rfl)
  change symbolWords m = _ at hws
  obtain rfl := List.prefix_nil.1 hprez
  obtain rfl : rest = [] := hnil.symm
  have hends : words b ++ after = start ++ [z ++ ['$']] := hsig.symm.trans hsig'
  have hnames : Cut m.methodName (before ++ [a]) := .snoc hname hsufa ha
  have hsigs : Cut m.methodSignature (start ++ [z]) := .snoc hstart hsufz hz
  rcases List.eq_nil_or_concat after with rfl | ⟨after, y, rfl⟩
  · -- all of the signature is in one word, with what is before and behind it
    rw [List.append_nil, Shell.words_of_blank_free hb] at hends
    split_ifs at hends with hnil
    · simp at hends
    · rw [← List.nil_append [b]] at hends
      obtain ⟨rfl, hend⟩ := List.append_inj' hends rfl
      obtain rfl := List.singleton_inj.1 hend
      exact ⟨_, _, hws ▸ .one before a z, hnames, hsigs⟩
  · rw [List.concat_eq_append, ← List.append_assoc] at hends
    obtain ⟨rfl, hy⟩ := List.append_inj' hends rfl
    obtain rfl : y = z ++ ['$'] := List.singleton_inj.1 hy
    rw [List.concat_eq_append] at hws
    rw [List.append_assoc] at hsigs
    exact ⟨_, _, hws ▸ .more before a b after z, hnames, hsigs.head hb⟩

theorem isEchoOption_of_head {s : string} (h : s.head? ≠ some '-') : isEchoOption s = false := by
  cases s with
  | nil => rfl
  | cons c s =>
    have hc : c ≠ '-' := fun heq => h (congrArg some heq)
    unfold isEchoOption
    split
    · rename_i heq
      exact absurd (List.cons.inj heq).1 hc
    · rfl

theorem echo_of_head (escapes : string → string) {arg : string} (h : arg.head? ≠ some '-') (args : List string) :
    echo escapes (arg :: args) = [' '].intercalate (arg :: args) := by
  refine echo_of_no_option escapes fun _ harg => ?_
  obtain rfl := Option.some.inj harg
  exact isEchoOption_of_head h

section
variable {x y : string} (hx : '/' ∉ x) (hy : '/' ∉ y)
include hx hy

theorem splitOn_slash : (x ++ '/' :: y).splitOn METHOD_NAME_SIGNATURE_SEPARATOR = [x, y] := by
  rw [METHOD_NAME_SIGNATURE_SEPARATOR, List.splitOn_append_cons_self_of_not_mem hx, List.splitOn_eq_singleton hy]

theorem cutField_name : cutField 1 (x ++ '/' :: y) = x := by
  rw [cutField, splitOn_slash hx hy]
  rfl

theorem cutField_signature : cutField 2 (x ++ '/' :: y) = y := by
  rw [cutField, splitOn_slash hx hy]
  rfl

end

theorem not_mem_cutField (n : ℕ) (line : string) : '/' ∉ cutField n line := by
  have hfree : ∀ field ∈ line.splitOn METHOD_NAME_SIGNATURE_SEPARATOR, '/' ∉ field := fun field h =>
    Paths.not_mem_of_mem_splitOn h
  rw [cutField]
  split_ifs with hlen
  · obtain ⟨field, hfield⟩ := List.length_eq_one_iff.1 hlen
    obtain rfl : line = field := (Paths.eq_intercalate hfield).trans List.intercalate_singleton
    exact hfree line (by simp [hfield])
  · rw [List.getD_eq_getElem?_getD]
    cases hfield : (line.splitOn METHOD_NAME_SIGNATURE_SEPARATOR)[n - 1]? with
    | none => exact List.not_mem_nil
    | some field => exact hfree field (List.mem_of_getElem? hfield)

theorem not_mem_of_words_eq {x y : string} {c : Char} (h : words x = words y) (hc : isBlank c = false)
    (hx : c ∉ x) : c ∉ y := by
  have hflat := congrArg List.flatten h
  rw [Shell.flatten_words, Shell.flatten_words] at hflat
  intro hy
  have hmem : c ∈ Shell.withoutBlanks y := List.mem_filter.2 ⟨hy, by rw [hc]; rfl⟩
  exact hx (List.mem_of_mem_filter (hflat ▸ hmem))

theorem readSymbols_eq (escapes : string → string) (text : string) : readSymbols escapes text =
    (symbolsIn text).map fun symbol => (cutField 1 (echo escapes [symbol]), cutField 2 (echo escapes [symbol])) := by
  rw [readSymbols, symbolsIn, List.map_flatMap]

structure Printed (expand : string → List string) (m : MethodSymbol) (part : List string × List string) : Prop where
  joined : Joined ((symbolWords m).flatMap expand) part.1 part.2
  starts : ∃ c w ws, (symbolWords m).flatMap expand = (c :: w) :: ws ∧ isBlank c = false ∧ c ≠ '-'

section
variable {escapes : string → string} {expand : string → List string} {methods : List MethodSymbol}
  {parts : List (List string × List string)}

theorem Printed.body_starts {m : MethodSymbol} {part : List string × List string} (h : Printed expand m part) :
    ∃ c rest, Joined.body part.1 part.2 = c :: rest ∧ isBlank c = false ∧ c ≠ '-' := by
  obtain ⟨c, w, ws, hws, hc⟩ := h.starts
  have htext := h.joined.text
  rw [hws] at htext
  obtain ⟨rest, hrest⟩ : ∃ rest, [' '].intercalate ((c :: w) :: ws) = c :: rest := by
    cases ws <;> simp [List.intercalate_cons_cons]
  rw [hrest] at htext
  obtain ⟨d, body, hbody⟩ := List.exists_cons_of_ne_nil (l := Joined.body part.1 part.2) (by simp [Joined.body])
  rw [hbody] at htext ⊢
  obtain ⟨rfl, -⟩ := List.cons.inj htext
  exact ⟨_, body, rfl, hc⟩

theorem metaDataLines_of_ne_nil (hsome : methods ≠ []) :
    metaDataLines methods = methods.map fun m => (m.methodName, m.methodSignature) := by
  cases methods with
  | nil => exact absurd rfl hsome
  | cons m methods => rfl

theorem parse_eq (hsome : methods ≠ []) (h : List.Forall₂ (Printed expand) methods parts) :
    parseAllFunctionSymbolsOfClass escapes expand methods =
      (spaced (parts.map fun part => Joined.body part.1 part.2)).flatMap (· ++ ['$']) := by
  have hkept : ((metaDataLines methods).filter fun line => line.1.head? ≠ some '~').flatMap
      (fun line => itemWords line.1 line.2) = methods.flatMap symbolWords := by
    rw [metaDataLines_of_ne_nil hsome, List.filter_eq_self.2, List.flatMap_map]
    · rfl
    · rw [List.forall_mem_map]
      intro m _
      obtain ⟨c, rest, hname, -, -, -, hc⟩ := m.starts
      simpa [hname] using hc
  have hne : ∀ l ∈ methods.map fun m => (symbolWords m).flatMap expand, l ≠ [] := by
    clear hkept hsome
    induction h with
    | nil => simp
    | cons hm _ ih =>
      obtain ⟨c, w, ws, hws, -⟩ := hm.starts
      exact List.forall_mem_cons.2 ⟨fun hnil => List.cons_ne_nil _ _ (hws.symm.trans hnil), ih⟩
  have hargs : (methods.flatMap symbolWords).flatMap expand =
      (methods.map fun m => (symbolWords m).flatMap expand).flatten := by
    rw [List.flatMap_assoc, List.flatMap_def]
  have htexts : (methods.map fun m => (symbolWords m).flatMap expand).map [' '].intercalate =
      (parts.map fun part => Joined.body part.1 part.2).map (· ++ ['$']) := by
    clear hkept hsome hargs hne
    induction h with
    | nil => rfl
    | cons hm _ ih =>
      simp only [List.map_cons] at ih ⊢
      rw [ih, hm.joined.text]
  rw [parseAllFunctionSymbolsOfClass, hkept, hargs, ← intercalate_bodies, ← htexts, ← Shell.intercalate_flatten hne]
  cases h with
  | nil => rfl
  | cons hm _ =>
    obtain ⟨c, w, ws, hws, -, hc⟩ := hm.starts
    rw [List.map_cons, hws, List.flatten_cons, List.cons_append]
    exact echo_of_head escapes (by simpa using hc) _

theorem head_spaced (h : List.Forall₂ (Printed expand) methods parts) :
    ∀ b ∈ spaced (parts.map fun part => Joined.body part.1 part.2), b.head? ≠ some '-' ∧ b.head? ≠ some '\n' := by
  have hbody : ∀ b ∈ parts.map fun part => Joined.body part.1 part.2, b.head? ≠ some '-' ∧ b.head? ≠ some '\n' := by
    intro b hb
    obtain ⟨part, hpart, rfl⟩ := List.mem_map.1 hb
    obtain ⟨c, rest, hbody, hc, hdash⟩ := Comp.forall_mem_of_forall₂ (fun _ _ hm => hm.body_starts) h part hpart
    rw [hbody]
    refine ⟨by simpa using hdash, ?_⟩
    intro heq
    obtain rfl : c = '\n' := Option.some.inj heq
    cases hc
  intro b hb
  rcases mem_spaced hb with hb | ⟨b, -, rfl⟩
  · exact hbody b hb
  · exact ⟨by simp, by simp⟩

/-- Each symbol is read as it has been printed if there is no separator in one. -/
theorem readSymbols_of_free (hsome : methods ≠ []) (h : List.Forall₂ (Printed expand) methods parts)
    (hfree : ∀ part ∈ parts, '$' ∉ Joined.body part.1 part.2 ∧ '\n' ∉ Joined.body part.1 part.2) :
    readSymbols escapes (parseAllFunctionSymbolsOfClass escapes expand methods) =
      (spaced (parts.map fun part => Joined.body part.1 part.2)).map fun b => (cutField 1 b, cutField 2 b) := by
  have hspaced : ∀ b ∈ spaced (parts.map fun part => Joined.body part.1 part.2), '$' ∉ b ∧ '\n' ∉ b := by
    rw [forall_mem_spaced (P := fun b => '$' ∉ b ∧ '\n' ∉ b) (by simp), List.forall_mem_map]
    exact hfree
  rw [readSymbols_eq, parse_eq hsome h, symbolsIn_bodies hspaced]
  refine List.map_congr_left fun b hb => ?_
  rw [echo_of_head escapes (head_spaced h b hb).1, List.intercalate_singleton]

/-- The lists are of one length only if there was none. -/
theorem free_of_roundTrip (hsome : methods ≠ []) (h : List.Forall₂ (Printed expand) methods parts)
    (hround : RoundTrip escapes expand methods) :
    ∀ part ∈ parts, '$' ∉ Joined.body part.1 part.2 ∧ '\n' ∉ Joined.body part.1 part.2 := by
  have hlen := congrArg List.length hround
  rw [readSymbols_eq, parse_eq hsome h, List.length_map, List.length_map, List.length_map, h.length_eq] at hlen
  have hfree := free_of_length (fun b hb => (head_spaced h b hb).2) (by rw [hlen, length_spaced, List.length_map])
  rwa [forall_mem_spaced (P := fun b => '$' ∉ b ∧ '\n' ∉ b) (by simp), List.forall_mem_map] at hfree

def fieldWords (b : string) : List string × List string := (words (cutField 1 b), words (cutField 2 b))

theorem fieldWords_body {name signature : List string} (h : ∀ w ∈ name ++ signature, '/' ∉ w) :
    fieldWords (Joined.body name signature) = (name.flatMap words, signature.flatMap words) ∧
      fieldWords (' ' :: Joined.body name signature) = (name.flatMap words, signature.flatMap words) := by
  rw [List.forall_mem_append] at h
  have hname : '/' ∉ [' '].intercalate name := Shell.not_mem_intercalate (by decide) h.1
  have hsig : '/' ∉ [' '].intercalate signature := Shell.not_mem_intercalate (by decide) h.2
  have hspace : '/' ∉ ' ' :: [' '].intercalate name := by simp [hname]
  have hwords : words (' ' :: [' '].intercalate name) = words ([' '].intercalate name) :=
    Shell.words_append_cons [] _ (by rfl)
  have hbody : ' ' :: Joined.body name signature =
      (' ' :: [' '].intercalate name) ++ '/' :: [' '].intercalate signature := rfl
  constructor
  · rw [fieldWords, Joined.body, cutField_name hname hsig, cutField_signature hname hsig, Shell.words_intercalate,
      Shell.words_intercalate]
  · rw [fieldWords, hbody, cutField_name hspace hsig, cutField_signature hspace hsig, hwords,
      Shell.words_intercalate, Shell.words_intercalate]

/-- Where no part has a slash, the names and the signatures that come back are those of the parts. -/
theorem roundTrip_iff_parts (hsome : methods ≠ []) (h : List.Forall₂ (Printed expand) methods parts)
    (hslash : ∀ part ∈ parts, ∀ w ∈ part.1 ++ part.2, '/' ∉ w) : RoundTrip escapes expand methods ↔
      (∀ part ∈ parts, '$' ∉ Joined.body part.1 part.2 ∧ '\n' ∉ Joined.body part.1 part.2) ∧
      List.Forall₂ (fun m part => part.1.flatMap words = words m.methodName ∧
        part.2.flatMap words = words m.methodSignature) methods parts := by
  have hread (hfree : ∀ part ∈ parts, '$' ∉ Joined.body part.1 part.2 ∧ '\n' ∉ Joined.body part.1 part.2) :
      (readSymbols escapes (parseAllFunctionSymbolsOfClass escapes expand methods)).map
        (fun m => (words m.1, words m.2)) = parts.map fun part => (part.1.flatMap words, part.2.flatMap words) := by
    rw [readSymbols_of_free hsome h hfree, List.map_map]
    change (spaced (parts.map fun part => Joined.body part.1 part.2)).map fieldWords = _
    rw [map_spaced, List.map_map]
    · exact List.map_congr_left fun part hpart => (fieldWords_body (hslash part hpart)).1
    · rw [List.forall_mem_map]
      intro part hpart
      obtain ⟨hbody, hspaced⟩ := fieldWords_body (hslash part hpart)
      exact hspaced.trans hbody.symm
  have hsame : parts.map (fun part => (part.1.flatMap words, part.2.flatMap words)) =
      methods.map (fun m => (words m.methodName, words m.methodSignature)) ↔
      List.Forall₂ (fun m part => part.1.flatMap words = words m.methodName ∧
        part.2.flatMap words = words m.methodSignature) methods parts := by
    rw [eq_comm, ← List.forall₂_eq_eq_eq, List.forall₂_map_left_iff, List.forall₂_map_right_iff]
    simp only [Prod.mk.injEq, eq_comm]
  constructor
  · intro hround
    have hfree := free_of_roundTrip hsome h hround
    rw [RoundTrip, hread hfree, hsame] at hround
    exact ⟨hfree, hround⟩
  · rintro ⟨hfree, hall⟩
    rw [RoundTrip, hread hfree, hsame]
    exact hall

end

theorem symbolWords_starts (m : MethodSymbol) :
    ∃ c w ws, symbolWords m = (c :: w) :: ws ∧ (c ∈ m.methodName ∧ Shell.isPlain c) ∧ isBlank c = false ∧ c ≠ '-' := by
  obtain ⟨c, rest, hname, hplain, hblank, hdash, -⟩ := m.starts
  obtain ⟨w, ws, hws⟩ := Shell.exists_words_cons hblank (rest ++ '/' :: (m.methodSignature ++ ['$']))
  exact ⟨c, w, ws, by rw [symbolWords, hname]; exact hws, ⟨hname ▸ List.mem_cons_self, hplain⟩, hblank, hdash⟩

structure Separated (m : MethodSymbol) : Prop where
  name : '$' ∉ m.methodName ∧ '/' ∉ m.methodName
  signature : '$' ∉ m.methodSignature ∧ '/' ∉ m.methodSignature

section
variable {escapes : string → string} {methods : List MethodSymbol}

theorem exists_part {expand : string → List string} {m : MethodSymbol} (h : ∀ w ∈ symbolWords m, expand w = [w]) :
    ∃ part : List string × List string,
      Printed expand m part ∧ Cut m.methodName part.1 ∧ Cut m.methodSignature part.2 := by
  obtain ⟨name, signature, hjoined, hcuts⟩ := exists_joined m
  have hself : (symbolWords m).flatMap expand = symbolWords m := by
    rw [List.flatMap_congr h, List.flatMap_singleton']
  obtain ⟨c, w, ws, hws, -, hc⟩ := symbolWords_starts m
  exact ⟨(name, signature), ⟨hself.symm ▸ hjoined, c, w, ws, hself.trans hws, hc⟩, hcuts⟩

theorem exists_parts {expand : string → List string} (h : ∀ m ∈ methods, ∀ w ∈ symbolWords m, expand w = [w]) :
    ∃ parts, List.Forall₂ (fun m part =>
      Printed expand m part ∧ Cut m.methodName part.1 ∧ Cut m.methodSignature part.2) methods parts := by
  obtain ⟨parts, hparts, -⟩ := (Comp.exists_forall₂_iff (Q := fun _ => True) methods).2
    fun m hm => (exists_part (h m hm)).imp fun _ hpart => ⟨hpart, trivial⟩
  exact ⟨parts, hparts⟩

theorem separated_of_roundTrip (hsome : methods ≠ []) (h : RoundTrip escapes (fun w => [w]) methods) : ∀ m ∈ methods, Separated m := by
  -- no slash is read
  have hslash : ∀ m ∈ methods, '/' ∉ m.methodName ∧ '/' ∉ m.methodSignature := by
    intro m hm
    have hmem := List.mem_map_of_mem (f := fun m : MethodSymbol => (words m.methodName, words m.methodSignature)) hm
    rw [← h, List.mem_map] at hmem
    obtain ⟨r, hr, heq⟩ := hmem
    obtain ⟨hname, hsig⟩ := Prod.mk.inj heq
    rw [readSymbols_eq, List.mem_map] at hr
    obtain ⟨s, -, rfl⟩ := hr
    exact ⟨not_mem_of_words_eq hname (by rfl) (not_mem_cutField _ _),
      not_mem_of_words_eq hsig (by rfl) (not_mem_cutField _ _)⟩
  have hself : ∀ m ∈ methods, ∀ w ∈ symbolWords m, (fun w => [w]) w = [w] := fun _ _ _ _ => rfl
  obtain ⟨parts, hparts⟩ := exists_parts hself
  have hfree := free_of_roundTrip hsome (hparts.imp fun _ _ hpart => hpart.1) h
  refine Comp.forall_mem_left_of_forall₂ (fun m part hpart => ?_) (Comp.forall₂_mem hparts)
  obtain ⟨hm, hpart, -, ⟨hname, -⟩, ⟨hsig, -⟩⟩ := hpart
  obtain ⟨hnames, hsigs⟩ : '$' ∉ [' '].intercalate part.1 ∧ '$' ∉ [' '].intercalate part.2 := by
    simpa [Joined.body] using (hfree part hpart).1
  rw [← Shell.words_intercalate] at hname hsig
  exact ⟨⟨not_mem_of_words_eq hname (by rfl) hnames, (hslash m hm).1⟩,
    not_mem_of_words_eq hsig (by rfl) hsigs, (hslash m hm).2⟩

/-- The empty line that is read for no method is printed, and read, as one without a name and a signature. -/
theorem not_roundTrip_nil (escapes : string → string) : ¬ RoundTrip escapes (fun w => [w]) [] := by
  have hread : readSymbols escapes (parseAllFunctionSymbolsOfClass escapes (fun w => [w]) []) = [([], [])] := rfl
  rw [RoundTrip, hread]
  exact List.cons_ne_nil _ _

theorem roundTrip_of_self {expand : string → List string} (hsome : methods ≠ []) (hsep : ∀ m ∈ methods, Separated m)
    (h : ∀ m ∈ methods, ∀ w ∈ symbolWords m, expand w = [w]) : RoundTrip escapes expand methods := by
  obtain ⟨parts, hparts⟩ := exists_parts h
  have hfree : ∀ part ∈ parts, ∀ w ∈ part.1 ++ part.2, '$' ∉ w ∧ '/' ∉ w ∧ '\n' ∉ w := by
    refine Comp.forall_mem_of_forall₂ (fun m part hpart => ?_) (Comp.forall₂_mem hparts)
    obtain ⟨hm, -, -, hname, hsig⟩ := hpart
    have hm := hsep m hm
    have hnl : ∀ w : string, (∀ c ∈ w, isBlank c = false) → '\n' ∉ w := fun w hw hmem => by cases hw _ hmem
    refine List.forall_mem_append.2 ⟨fun w hw => ?_, fun w hw => ?_⟩
    · exact ⟨hname.not_mem hm.name.1 w hw, hname.not_mem hm.name.2 w hw, hnl w (hname.blank_free w hw)⟩
    · exact ⟨hsig.not_mem hm.signature.1 w hw, hsig.not_mem hm.signature.2 w hw, hnl w (hsig.blank_free w hw)⟩
  rw [roundTrip_iff_parts hsome (hparts.imp fun _ _ hpart => hpart.1) fun part hpart w hw => (hfree part hpart w hw).2.1]
  refine ⟨fun part hpart => ?_, hparts.imp fun _ _ hpart => ⟨hpart.2.1.words_eq, hpart.2.2.words_eq⟩⟩
  exact ⟨Joined.not_mem_body (by decide) (by decide) fun w hw => (hfree part hpart w hw).1,
    Joined.not_mem_body (by decide) (by decide) fun w hw => (hfree part hpart w hw).2.2⟩

end

/-! ### Patterns in a name or a signature -/

/-- What stands for a word, or for the last one without its end, in a tree with one way into it. -/
def Put (top k k' : string) : Prop := k' = k ∨ k ≠ [] ∧ top ≠ [] ∧ (k' = top ∨ k' ++ ['$'] = top)

/-- What a narrow tree puts in for a word. -/
structure Puts (tree : Tree) (e : string → string) : Prop where
  expand : ∀ w, w.count '/' ≤ 1 → tree.expand w = [e w]
  cases : ∀ w, w.count '/' ≤ 1 → e w = w ∨ Paths.Names w (e w) ∧ e w ∈ tree.paths
  names : ∀ w, w.count '/' ≤ 1 → ∀ p ∈ tree.paths, Paths.Names w p → e w = p

section
variable {tree : Tree} {top : string}

theorem exists_puts (h : tree.Narrow top) : ∃ e, Puts tree e := by
  refine ⟨fun w => (tree.expand w).headD [], fun w hw => ?_, fun w hw => ?_, fun w hw p hp hnames => ?_⟩ <;>
    obtain ⟨path, hpath, hcases, hunique⟩ := h.expand hw <;> rw [hpath]
  · rfl
  · exact hcases
  · exact hunique p hp hnames

variable {e : string → string} (he : Puts tree e) (h : tree.Narrow top)
include he h

theorem Puts.name {k : string} (hk : '/' ∉ k) : '/' ∉ e k ∧ Put top k (e k) := by
  rcases he.cases k ((List.count_eq_zero.2 hk).trans_le (Nat.zero_le 1)) with heq | ⟨hnames, hmem⟩
  · rw [heq]
    exact ⟨hk, .inl rfl⟩
  · obtain ⟨hpat, hfree, -⟩ := (Paths.names_iff_of_name hk).1 hnames
    obtain ⟨htop, hne⟩ := h.name _ hmem hfree
    refine ⟨hfree, .inr ⟨?_, hne, .inl htop⟩⟩
    rintro rfl
    cases hpat

theorem Puts.last {z : string} (hz : '/' ∉ z) :
    ∃ z', e (z ++ ['$']) = z' ++ ['$'] ∧ '/' ∉ z' ∧ Put top z z' := by
  have hfree : '/' ∉ z ++ ['$'] := by simp [hz]
  rcases he.cases _ ((List.count_eq_zero.2 hfree).trans_le (Nat.zero_le 1)) with heq | ⟨hnames, hmem⟩
  · exact ⟨z, heq, hz, .inl rfl⟩
  · obtain ⟨hpat, hfree', hfit⟩ := (Paths.names_iff_of_name hfree).1 hnames
    obtain ⟨htop, hne⟩ := h.name _ hmem hfree'
    obtain ⟨z', hz'⟩ := Shell.fit_last (by rfl) (by decide) hfit.fit
    rw [hz'] at hfree' htop ⊢
    refine ⟨z', rfl, fun hc => hfree' (List.mem_append_left _ hc), .inr ⟨?_, hne, .inr htop⟩⟩
    rintro rfl
    cases hpat

omit he h in
theorem put_of_fitsName {a : string} (hfit : Paths.FitsName a top) : Put top a top := by
  by_cases ha : a = []
  · subst ha
    exact .inl ((Shell.fit_nil top).1 hfit.fit)
  · exact .inr ⟨ha, mt hfit.name_ne ha, .inl rfl⟩

theorem Puts.slash {a b : string} (ha : '/' ∉ a) (hb : '/' ∉ b) :
    ∃ a' b', e (a ++ '/' :: b) = a' ++ '/' :: b' ∧ ('/' ∉ a' ∧ '/' ∉ b') ∧ Put top a a' ∧
      (b' = b ∨ a' = top ∧ Paths.FitsName a top ∧ Paths.FitsName b b') := by
  have hcount : (a ++ '/' :: b).count '/' ≤ 1 := by simp [List.count_eq_zero.2 ha, List.count_eq_zero.2 hb]
  rcases he.cases _ hcount with heq | ⟨hnames, hmem⟩
  · exact ⟨a, b, heq, ⟨ha, hb⟩, .inl rfl, .inl rfl⟩
  · obtain ⟨-, c, d, heq, ⟨hc, hd⟩, hfitc, hfitd⟩ := (Paths.names_iff_of_dir ha hb).1 hnames
    rw [heq] at hmem ⊢
    obtain rfl := h.dir c d hmem hc
    exact ⟨c, d, rfl, ⟨hc, hd⟩, put_of_fitsName hfitc, .inr ⟨rfl, hfitc, hfitd⟩⟩

def SameWords (k k' : string) : Prop := words k' = words k

omit he h in
theorem SameWords.withoutBlanks {k k' : string} (hsame : SameWords k k') (hk : ∀ c ∈ k, isBlank c = false) :
    Shell.withoutBlanks k' = k :=
  Shell.withoutBlanks_of_words_eq hsame hk

omit he h in
theorem forall₂_snoc_iff {R : string → string → Prop} {before : List string} {a a' : string} :
    List.Forall₂ R (before ++ [a]) (before.map e ++ [a']) ↔ (∀ w ∈ before, R w (e w)) ∧ R a a' := by
  induction before with
  | nil => simp
  | cons w before ih => simp [ih, and_assoc]

omit he h in
theorem mem_zip_snoc (before : List string) (a a' : string) : (a, a') ∈ (before ++ [a]).zip (before.map e ++ [a']) := by
  rw [List.zip_append (by rw [List.length_map])]
  exact List.mem_append_right _ (List.mem_singleton_self _)

/-- A symbol after the expansion: its words are changed where they are those of the name or of the signature, and
are known again if these are. -/
structure Expanded (top : string) (e : string → string) (ws name signature name' signature' : List string) :
    Prop where
  joined : Joined (ws.map e) name' signature'
  slash : ∀ w ∈ name' ++ signature', '/' ∉ w
  names : List.Forall₂ (Put top) name name'
  signatures : ∃ b rest b' rest', signature = b :: rest ∧ signature' = b' :: rest' ∧
    List.Forall₂ (Put top) rest rest' ∧ (Put top b b' ∨ ∃ a, (a, top) ∈ name.zip name' ∧ Paths.FitsName a top)
  known : List.Forall₂ SameWords name name' → List.Forall₂ SameWords signature signature' →
    ∀ w ∈ ws, Shell.withoutBlanks (e w) = w

theorem Puts.one {before : List string} {a z : string}
    (hslash : ∀ w ∈ (before ++ [a]) ++ [z], '/' ∉ w)
    (hblank : ∀ w ∈ (before ++ [a]) ++ [z], ∀ c ∈ w, isBlank c = false) :
    ∃ name' signature', Expanded top e (before ++ [a ++ '/' :: (z ++ ['$'])]) (before ++ [a]) [z] name' signature' := by
  simp only [List.forall_mem_append, List.forall_mem_singleton] at hslash hblank
  obtain ⟨⟨hbefore, ha⟩, hz⟩ := hslash
  obtain ⟨⟨hbefore', ha'⟩, hz'⟩ := hblank
  obtain ⟨a', b', heq, ⟨hfa, hfb⟩, hput, hcases⟩ := he.slash h ha (b := z ++ ['$']) (by simp [hz])
  obtain ⟨z', rfl⟩ : ∃ z', b' = z' ++ ['$'] := by
    rcases hcases with rfl | ⟨-, -, hfit⟩
    exacts [⟨z, rfl⟩, Shell.fit_last (by rfl) (by decide) hfit.fit]
  refine ⟨before.map e ++ [a'], [z'], ?_, ?_, forall₂_snoc_iff.2 ⟨fun k hk => (he.name h (hbefore k hk)).2, hput⟩,
    ⟨z, [], z', [], rfl, rfl, .nil, ?_⟩, fun hnames hsigs w hw => ?_⟩
  · rw [List.map_append, List.map_singleton, heq]
    exact .one _ _ _
  · simp only [List.forall_mem_append, List.forall_mem_singleton, List.forall_mem_map]
    exact ⟨⟨fun k hk => (he.name h (hbefore k hk)).1, hfa⟩, fun hc => hfb (List.mem_append_left _ hc)⟩
  · rcases hcases with hsame | ⟨rfl, hfit, -⟩
    · exact .inl (.inl (List.append_left_injective _ hsame))
    · exact .inr ⟨a, mem_zip_snoc _ _ _, hfit⟩
  · obtain ⟨hb, hsame⟩ := forall₂_snoc_iff.1 hnames
    have hzsame := (List.forall₂_cons.1 hsigs).1
    rcases List.mem_append.1 hw with hw | hw
    · exact (hb w hw).withoutBlanks (hbefore' w hw)
    · rw [List.mem_singleton.1 hw, heq, Shell.withoutBlanks_append_cons a' _ (by rfl),
        Shell.withoutBlanks_append_cons z' [] (by rfl), hsame.withoutBlanks ha', hzsame.withoutBlanks hz']
      rfl

theorem Puts.more {before after : List string} {a b z : string}
    (hslash : ∀ w ∈ (before ++ [a]) ++ b :: (after ++ [z]), '/' ∉ w)
    (hblank : ∀ w ∈ (before ++ [a]) ++ b :: (after ++ [z]), ∀ c ∈ w, isBlank c = false) :
    ∃ name' signature', Expanded top e (before ++ (a ++ '/' :: b) :: (after ++ [z ++ ['$']])) (before ++ [a])
      (b :: (after ++ [z])) name' signature' := by
  simp only [List.forall_mem_append, List.forall_mem_cons, List.not_mem_nil, false_imp_iff, implies_true,
    and_true] at hslash hblank
  obtain ⟨⟨hbefore, ha⟩, hb, hafter, hz⟩ := hslash
  obtain ⟨⟨hbefore', ha'⟩, hb', hafter', hz'⟩ := hblank
  obtain ⟨a', b', heq, ⟨hfa, hfb⟩, hput, hcases⟩ := he.slash h ha hb
  obtain ⟨z', hzeq, hfz, hputz⟩ := he.last h hz
  refine ⟨before.map e ++ [a'], b' :: (after.map e ++ [z']), ?_, ?_,
    forall₂_snoc_iff.2 ⟨fun k hk => (he.name h (hbefore k hk)).2, hput⟩,
    ⟨b, after ++ [z], b', after.map e ++ [z'], rfl, rfl,
      forall₂_snoc_iff.2 ⟨fun k hk => (he.name h (hafter k hk)).2, hputz⟩, ?_⟩, fun hnames hsigs w hw => ?_⟩
  · rw [List.map_append, List.map_cons, List.map_append, List.map_singleton, heq, hzeq]
    exact .more _ _ _ _ _
  · simp only [List.forall_mem_append, List.forall_mem_cons, List.not_mem_nil, false_imp_iff, implies_true,
      and_true, List.forall_mem_map]
    exact ⟨⟨fun k hk => (he.name h (hbefore k hk)).1, hfa⟩, hfb, fun k hk => (he.name h (hafter k hk)).1, hfz⟩
  · rcases hcases with rfl | ⟨rfl, hfit, -⟩
    · exact .inl (.inl rfl)
    · exact .inr ⟨a, mem_zip_snoc _ _ _, hfit⟩
  · obtain ⟨hbs, hsame⟩ := forall₂_snoc_iff.1 hnames
    obtain ⟨hbsame, hrest⟩ := List.forall₂_cons.1 hsigs
    obtain ⟨has, hzsame⟩ := forall₂_snoc_iff.1 hrest
    rcases List.mem_append.1 hw with hw | hw
    · exact (hbs w hw).withoutBlanks (hbefore' w hw)
    rcases List.mem_cons.1 hw with rfl | hw
    · rw [heq, Shell.withoutBlanks_append_cons a' _ (by rfl), hsame.withoutBlanks ha', hbsame.withoutBlanks hb']
    rcases List.mem_append.1 hw with hw | hw
    · exact (has w hw).withoutBlanks (hafter' w hw)
    · rw [List.mem_singleton.1 hw, hzeq, Shell.withoutBlanks_append_cons z' [] (by rfl), hzsame.withoutBlanks hz']
      rfl

theorem Puts.joined {ws name signature : List string} (hj : Joined ws name signature)
    (hslash : ∀ w ∈ name ++ signature, '/' ∉ w) (hblank : ∀ w ∈ name ++ signature, ∀ c ∈ w, isBlank c = false) :
    ∃ name' signature', Expanded top e ws name signature name' signature' := by
  cases hj with
  | one before a z => exact he.one h hslash hblank
  | more before a b after z => exact he.more h hslash hblank

end

theorem Joined.count_le {ws name signature : List string} (hj : Joined ws name signature)
    (hslash : ∀ w ∈ name ++ signature, '/' ∉ w) : ∀ w ∈ ws, w.count '/' ≤ 1 := by
  have hnone : ∀ {w : string}, '/' ∉ w → w.count '/' = 0 := List.count_eq_zero.2
  cases hj with
  | one before a z =>
    simp only [List.forall_mem_append, List.forall_mem_singleton] at hslash ⊢
    exact ⟨fun w hw => by rw [hnone (hslash.1.1 w hw)]; exact Nat.zero_le _,
      by simp [hnone hslash.1.2, hnone hslash.2]⟩
  | more before a b after z =>
    simp only [List.forall_mem_append, List.forall_mem_cons, List.not_mem_nil, false_imp_iff, implies_true,
      and_true] at hslash ⊢
    exact ⟨fun w hw => by rw [hnone (hslash.1.1 w hw)]; exact Nat.zero_le _,
      by simp [hnone hslash.1.2, hnone hslash.2.1], fun w hw => by rw [hnone (hslash.2.2.1 w hw)]; exact Nat.zero_le _,
      by simp [hnone hslash.2.2.2]⟩

theorem Put.eq_or {top k k' : string} (h : Put top k k') (hk : '$' ∉ k') :
    k' = k ∨ k' = if '$' ∈ top then top.dropLast else top := by
  rcases h with rfl | ⟨-, -, rfl | rfl⟩
  · exact .inl rfl
  · exact .inr (by rw [if_neg hk])
  · exact .inr (by simp)

section
variable {top : string} {name name' : List string} (hput : List.Forall₂ (Put top) name name')
  (hblank : ∀ w ∈ name, ∀ c ∈ w, isBlank c = false) (hfree : ∀ w ∈ name', '$' ∉ w)
include hput hblank hfree

theorem sameWords_of_put (heq : name'.flatMap words = name.flatMap words) : List.Forall₂ SameWords name name' := by
  have hone : List.Forall₂ (fun k k' => (words k).length ≤ 1 ∧
      (k' = k ∨ k' = if '$' ∈ top then top.dropLast else top)) name name' :=
    (Comp.forall₂_mem hput).imp fun k k' h => ⟨Shell.length_words_le (hblank k h.1), h.2.2.eq_or (hfree k' h.2.1)⟩
  exact Shell.words_eq_of_const hone heq

omit hfree in
/-- Where the way into the tree is put in for a word too, what is put in for others is one word. -/
theorem sameWords_of_top {a : string} (htop : '$' ∉ top) (ha : ∀ c ∈ a, isBlank c = false)
    (hfit : Paths.FitsName a top) (hsame : SameWords a top) {b b' : string}
    (heq : (b' :: name').flatMap words = (b :: name).flatMap words) :
    List.Forall₂ SameWords (b :: name) (b' :: name') := by
  refine Shell.words_eq_of_head ((Comp.forall₂_mem hput).imp fun k k' h => ?_) heq
  obtain ⟨hk, hk', rfl | ⟨hne, htopne, heq⟩⟩ := h
  · rfl
  · have hane : a ≠ [] := by
      rintro rfl
      exact htopne ((Shell.fit_nil top).1 hfit.fit)
    have hk'top : k' = top := heq.resolve_right fun h => htop (h ▸ by simp)
    rw [hk'top, hsame, Shell.words_of_free hane ha, Shell.words_of_free hne (hblank k hk)]
    rfl

end

section
variable {escapes : string → string} {methods : List MethodSymbol} {tree : Tree} {top : string}

theorem Separated.count_le {m : MethodSymbol} (h : Separated m) : ∀ w ∈ symbolWords m, w.count '/' ≤ 1 := by
  obtain ⟨name, signature, hj, hname, hsig⟩ := exists_joined m
  exact hj.count_le (List.forall_mem_append.2 ⟨hname.not_mem h.name.2, hsig.not_mem h.signature.2⟩)

/-- A method in a narrow tree: its words are known again if its name and its signature are. -/
theorem Puts.method {e : string → string} (he : Puts tree e) (h : tree.Narrow top) {m : MethodSymbol}
    (hm : Separated m) : ∃ part : List string × List string, Printed tree.expand m part ∧
      (∀ w ∈ part.1 ++ part.2, '/' ∉ w) ∧ ('$' ∉ Joined.body part.1 part.2 →
        part.1.flatMap words = words m.methodName → part.2.flatMap words = words m.methodSignature →
        ∀ w ∈ symbolWords m, ∀ p ∈ tree.paths, Paths.Names w p → Shell.withoutBlanks p = w) := by
  obtain ⟨name, signature, hj, hname, hsig⟩ := exists_joined m
  have hslash : ∀ w ∈ name ++ signature, '/' ∉ w :=
    List.forall_mem_append.2 ⟨hname.not_mem hm.name.2, hsig.not_mem hm.signature.2⟩
  have hblank : ∀ w ∈ name ++ signature, ∀ c ∈ w, isBlank c = false :=
    List.forall_mem_append.2 ⟨hname.blank_free, hsig.blank_free⟩
  have hcount := hm.count_le
  have hexpand : (symbolWords m).flatMap tree.expand = (symbolWords m).map e := by
    rw [List.flatMap_congr fun w hw => he.expand w (hcount w hw), List.map_eq_flatMap]
  obtain ⟨name', signature', hj', hslash', hput, ⟨b, rest, b', rest', rfl, rfl, hputs, hfirst⟩, hknown⟩ :=
    he.joined h hj hslash hblank
  refine ⟨(name', b' :: rest'), ⟨hexpand.symm ▸ hj', ?_⟩, hslash', fun hend hname' hsig' w hw p hp hnames => ?_⟩
  · obtain ⟨c, w, ws, hws, ⟨hc, hplain⟩, hcs⟩ := symbolWords_starts m
    have hslash : c ≠ '/' := fun heq => hm.name.2 (heq ▸ hc)
    obtain ⟨w', hw'⟩ : ∃ w', e (c :: w) = c :: w' := by
      rcases he.cases (c :: w) (hcount _ (by simp [hws])) with heq | ⟨hnames, -⟩
      exacts [⟨w, heq⟩, hnames.cons hplain hslash]
    exact ⟨c, w', ws.map e, by rw [hexpand, hws, List.map_cons, hw'], hcs⟩
  · have hfree : (∀ w ∈ name', '$' ∉ w) ∧ ∀ w ∈ b' :: rest', '$' ∉ w :=
      ⟨fun w hw hc => hend (List.mem_append_left _ (Shell.mem_intercalate hw hc)),
        fun w hw hc => hend (List.mem_append_right _ (List.mem_cons_of_mem _ (Shell.mem_intercalate hw hc)))⟩
    rw [List.forall_mem_append] at hblank
    have hsame := sameWords_of_put hput hblank.1 hfree.1 (hname'.trans hname.words_eq.symm)
    have heq := hsig'.trans hsig.words_eq.symm
    have hsame' : List.Forall₂ SameWords (b :: rest) (b' :: rest') := by
      rcases hfirst with hb | ⟨a, hzip, hfit⟩
      · exact sameWords_of_put (.cons hb hputs) hblank.2 hfree.2 heq
      · obtain ⟨ha, htop⟩ := List.of_mem_zip hzip
        exact sameWords_of_top hputs (fun w hw => hblank.2 w (List.mem_cons_of_mem _ hw)) (hfree.1 top htop)
          (hblank.1 a ha) hfit ((List.forall₂_iff_zip.1 hsame).2 hzip) heq
    rw [← he.names w (hcount w hw) p hp hnames]
    exact hknown hsame hsame' w hw

/-- What comes back tells, but for blanks, every path that has been put in. -/
theorem known_of_roundTrip (hsome : methods ≠ []) (h : tree.Narrow top) (hsep : ∀ m ∈ methods, Separated m)
    (hround : RoundTrip escapes tree.expand methods) : ∀ m ∈ methods, ∀ w ∈ symbolWords m, ∀ p ∈ tree.paths,
      Paths.Names w p → Shell.withoutBlanks p = w := by
  obtain ⟨e, he⟩ := exists_puts h
  obtain ⟨parts, hparts, -⟩ := (Comp.exists_forall₂_iff (Q := fun _ => True) methods).2
    fun m hm => (he.method h (hsep m hm)).imp fun _ hpart => ⟨hpart, trivial⟩
  obtain ⟨hfree, hwords⟩ := (roundTrip_iff_parts hsome (hparts.imp fun _ _ hpart => hpart.1)
    (Comp.forall_mem_of_forall₂ (fun _ _ hpart => hpart.2.1) hparts)).1 hround
  refine Comp.forall_mem_left_of_forall₂ (fun m part hpart => ?_) (hwords.mp (fun _ _ h h' => And.intro h h')
    (Comp.forall₂_mem hparts))
  obtain ⟨⟨hname, hsig⟩, -, hmem, -, -, hpart⟩ := hpart
  exact hpart (hfree part hmem).1 hname hsig

/-- No separator is in the name or the signature, and no word that is a pattern fits another path. -/
structure Survives (m : MethodSymbol) : Prop where
  separated : Separated m
  patterns : ∀ w ∈ symbolWords m, ∀ path, Paths.Names w path → path = w

/-- A list of methods comes back from every directory exactly if there is one and each of them does. -/
theorem round_trip_iff (escapes : string → string) (methods : List MethodSymbol) :
    (∀ tree : Tree, RoundTrip escapes tree.expand methods) ↔ methods ≠ [] ∧ ∀ m ∈ methods, Survives m := by
  constructor
  · intro hround
    have hempty := Tree.expand_empty ▸ hround Tree.empty
    have hsome : methods ≠ [] := by
      rintro rfl
      exact not_roundTrip_nil escapes hempty
    have hsep := separated_of_roundTrip hsome hempty
    refine ⟨hsome, fun m hm => ⟨hsep m hm, fun w hw path hnames => ?_⟩⟩
    by_contra hne
    obtain ⟨tree, top, other, hnarrow, hmem, hnames', hother⟩ :=
      Tree.exists_narrow ((hsep m hm).count_le w hw) hnames hne
    exact hother (known_of_roundTrip hsome hnarrow hsep (hround tree) m hm w hw other hmem hnames')
  · rintro ⟨hsome, h⟩ tree
    refine roundTrip_of_self hsome (fun m hm => (h m hm).separated) fun m hm w hw => ?_
    exact tree.fileNames.eq_singleton ((h m hm).patterns w hw)

end

def divide : MethodSymbol where
  methodName := "operator/".toList
  methodSignature := "Foo operator/(Foo o) ".toList
  starts := ⟨'o', "perator/".toList, rfl, by decide, by decide, by decide, by decide⟩

/-- Its name ends at its own slash, and the signature is the nothing before the next one. -/
theorem divide_is_cut : ¬ RoundTrip id Tree.empty.expand [divide] := by
  have hread : readSymbols id (parseAllFunctionSymbolsOfClass id Tree.empty.expand [divide]) =
      [("operator".toList, [])] := by decide +kernel
  rw [RoundTrip, hread]
  decide

end CWorkspace.Stub
