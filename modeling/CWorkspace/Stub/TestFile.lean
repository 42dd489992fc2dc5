import CWorkspace.Stub.Arity
import CWorkspace.Stub.Keeps

/-!
# The test file of a class

From the declarations of a class, as ctags lists them, to the file `main` writes: each method has one statement
of ON_CALL, one of MOCK_METHOD and one test in it, in the order of the names, and of the methods with one name
the first (`main_writes_testFile`).
-/

namespace CWorkspace.Stub
open FileSystem (Keeps)

/-! ### The marks of the file -/

def pathMark : string := "${origSrcFilePath}".toList
def blocksMark : string := "${stubBlockList}".toList

def fileMarks : List string := [pathMark, blocksMark]

def fixtureMarks : List string :=
  [Mark.testClassName, Mark.testClassName, Mark.testClassName, Mark.origClassName, Mark.testClassName].map Mark.text

set_option maxRecDepth 8000 in
theorem fileTemplates :
    Template testFixtureTemplate fixtureMarks [Mark.testClassName.text, Mark.origClassName.text, blocksMark] ∧
    Template gtestFileTemplate fileMarks fileMarks := by
  have h1 : testFixtureTemplate = _ := String.toList_ofList
  have h2 : gtestFileTemplate = _ := String.toList_ofList
  rw [h1, h2]
  decide +kernel

set_option maxRecDepth 8000 in
theorem blocksMark_templates :
    Template onCallTemplate onCallMarks [blocksMark] ∧ Template mockMethodTemplate mockMethodMarks [blocksMark] ∧
    Template mockStubTemplate mockStubMarks [blocksMark] ∧
    Template methodStubTemplate methodStubMarks [blocksMark] := by
  have h1 : onCallTemplate = _ := String.toList_ofList
  have h2 : mockMethodTemplate = _ := String.toList_ofList
  have h3 : mockStubTemplate = _ := String.toList_ofList
  have h4 : methodStubTemplate = _ := String.toList_ofList
  rw [h1, h2, h3, h4]
  decide +kernel

set_option maxRecDepth 30000 in
theorem blocksMark_free : ¬ blocksMark <:+: geneAssertionsStub ∧ ¬ blocksMark <:+: geneMatcherStub ∧
    ¬ blocksMark <:+: unitTestHeader := by
  have h1 : geneAssertionsStub = _ := String.toList_ofList
  have h2 : geneMatcherStub = _ := String.toList_ofList
  have h3 : unitTestHeader = _ := String.toList_ofList
  rw [h1, h2, h3]
  decide +kernel

set_option maxRecDepth 8000 in
theorem newline_heads : methodStubTemplate.head? = some '\n' ∧ unitTestHeader.head? = some '\n' := by
  have h1 : methodStubTemplate = _ := String.toList_ofList
  have h2 : unitTestHeader = _ := String.toList_ofList
  rw [h1, h2]
  exact ⟨rfl, rfl⟩

/-- A text in which nothing is replaced. -/
def Clean (s : string) : Prop := ∀ mark ∈ Mark.all.map Mark.text ++ fileMarks, ¬ mark <:+: s

namespace Clean
variable {s u : string} (h : Clean s)
include h

theorem mark (m : Mark) : ¬ m.text <:+: s :=
  h _ (List.mem_append_left _ (List.mem_map_of_mem (by cases m <;> simp [Mark.all])))

theorem path : ¬ pathMark <:+: s := h _ (List.mem_append_right _ (by simp [fileMarks]))

theorem blocks : ¬ blocksMark <:+: s := h _ (List.mem_append_right _ (by simp [fileMarks]))

theorem of_infix (hin : u <:+: s) : Clean u := fun m hm hu => h m hm (hu.trans hin)

theorem append (hu : ∀ mark ∈ Mark.all.map Mark.text ++ fileMarks, ¬ mark <:+: u ∧ ¬ LeftSeam mark u) :
    Clean (s ++ u) := fun m hm => not_infix_append (h m hm) (hu m hm).1 (hu m hm).2

theorem mock : Clean (s ++ "Mock".toList) := h.append (by decide +kernel)

theorem test : Clean (s ++ "Test".toList) := h.append (by decide +kernel)

end Clean

/-! ### The class -/

/-- A path that ends in the name of a class and an extension. -/
structure ClassPath where
  dir : string
  className : string
  extension : string
  dir_ne : dir ≠ []
  className_ne : className ≠ []
  className_free : '.' ∉ className ∧ '/' ∉ className
  extension_ne : extension ≠ []
  extension_free : '/' ∉ extension
  line : ∀ a ∈ dir ++ '/' :: (className ++ '.' :: extension), Regex.isAny a

namespace ClassPath
variable (p : ClassPath)

def path : string := p.dir ++ '/' :: (p.className ++ '.' :: p.extension)

theorem className_infix : p.className <:+: p.path :=
  ⟨p.dir ++ ['/'], '.' :: p.extension, by simp [path]⟩

theorem ways_className (caps : List (ℕ × List Char)) : ∃ m,
    ((Regex.seq (.group 1 (.rep true 1 .any)) (.seq (.char '.') (.rep false 1 .any))).ways
      ⟨false, p.className ++ '.' :: p.extension, caps⟩).head? = some m ∧ m.caps = (1, p.className) :: caps := by
  have hline : ∀ a ∈ p.className ++ '.' :: p.extension, Regex.isAny a := fun a ha =>
    p.line a (List.mem_append_right _ (List.mem_cons_of_mem _ ha))
  have hone : (Regex.rep false 1 .any).ways ⟨false, p.extension, (1, p.className) :: caps⟩ ≠ [] := by
    rw [Regex.ways_rep_any_ne_nil]
    obtain ⟨c, rest, hext⟩ := List.exists_cons_of_ne_nil p.extension_ne
    rw [hext]
    exact hline c (by simp [hext])
  obtain ⟨m, ms, hm⟩ := List.exists_cons_of_ne_nil hone
  refine ⟨m, ?_, Regex.caps_of_mem_rep_any (hm ▸ List.mem_cons_self)⟩
  rw [Regex.head?_group_lazy _ rfl 1 p.className_ne fun a ha => hline a (List.mem_append_left _ ha),
    Regex.ways_seq_char, hm]
  · rfl
  · intro i caps _ hi
    refine Regex.ways_seq_char_of_ne _ ?_
    rw [List.drop_append_of_le_length (Nat.le_of_lt hi), List.drop_eq_getElem_cons hi]
    exact fun heq => p.className_free.1 (Option.some.inj heq ▸ List.getElem_mem hi)
  · rw [Regex.ways_seq_char]
    exact hone

theorem getClassNameFromPath_path : getClassNameFromPath p.path = p.className := by
  obtain ⟨m, hm, hcaps⟩ := p.ways_className []
  have hslash : '/' ∉ p.className ++ '.' :: p.extension := by
    rw [List.mem_append, List.mem_cons]
    rintro (h | h | h)
    exacts [p.className_free.2 h, absurd h (by decide), p.extension_free h]
  -- the greedy repetition goes back to the last slash
  have hways : (classNameRegex.ways ⟨true, p.path, []⟩).head? = some m := by
    rw [← hm]
    have hskip : MatchState.skip ⟨true, p.path, []⟩ p.dir.length =
        ⟨false, '/' :: (p.className ++ '.' :: p.extension), []⟩ := Regex.skip_eq rfl p.dir_ne
    refine (Regex.head?_greedy (List.length_pos_iff.2 p.dir_ne)
      (Regex.le_takeWhile (u := '/' :: (p.className ++ '.' :: p.extension)) rfl fun a ha =>
        p.line a (List.mem_append_left _ ha)) (fun i hi _ => ?_) ?_).trans ?_
    · refine Regex.ways_seq_char_of_ne _ fun h => hslash ?_
      obtain ⟨k, rfl⟩ := Nat.exists_eq_add_of_lt hi
      rw [Regex.skip_rest, path, Nat.add_assoc, List.drop_length_add_append, List.drop_succ_cons] at h
      exact List.mem_of_mem_drop (List.mem_of_mem_head? h)
    · rw [hskip, Regex.ways_seq_char]
      exact List.ne_nil_of_mem (List.mem_of_mem_head? hm)
    · rw [hskip, Regex.ways_seq_char]
  rw [getClassNameFromPath, Regex.search_of_start hways, Regex.str, Option.bind_some, hcaps]; rfl

end ClassPath

/-- The declaration is the first one of its name. -/
def Declares (ds : List Declared) (d : Declared) : Prop := ds.find? (fun e => e.name = d.name) = some d

/-- The first method line, which is left out, and then a line for each declaration. -/
def Lists (lines : List string) (ds : List Declared) : Prop :=
  ∃ (first : string) (tags : List MethodTag), methodLines lines = first :: tags.map MethodTag.line ∧
    (∀ t ∈ tags, t.Ordinary) ∧ tags.map (fun t => (t.name, t.signature)) = ds.map fun d => (d.name, d.signature)

section
variable {lines : List string} {ds ms : List Declared} {symbols : MethodSymbols}

theorem Lists.method_iff (h : Lists lines ds) (name signature : string) : Method lines name signature ↔
    (ds.find? fun d => d.name = name).map (·.signature) = some signature := by
  obtain ⟨first, tags, hlines, hordinary, htags⟩ := h
  have hread : tags.map (fun t => (lineName t.line, lineSignature t.line)) =
      tags.map fun t => (t.name, t.signature) := List.map_congr_left fun t ht => by
    obtain ⟨hname, hsignature⟩ := MethodTag.lineName_of_reads (hordinary t ht).reads
    rw [hname, hsignature]
  have hfind := congrArg (fun l => (l.find? fun e : string × string => e.1 = name).map Prod.snd) (hread.trans htags)
  simp only [List.find?_map, Option.map_map, Function.comp_def] at hfind
  rw [Method, symbolLines, hlines, List.tail_cons, List.find?_map, Option.map_map, ← hfind]
  rfl

theorem Lists.exists_methods (h : Lists lines ds) : ∃ ms : List Declared, (ms.map (·.name)).Pairwise (· < ·) ∧
    (∀ d, d ∈ ms ↔ Declares ds d) ∧
    (parseAllMethodSymbolsFromCtags lines).entries = ms.map fun d => (d.name, d.signature) := by
  have hentry : ∀ e ∈ (parseAllMethodSymbolsFromCtags lines).entries, ∃ d : Declared,
      e = (d.name, d.signature) ∧ Declares ds d := by
    rintro ⟨name, signature⟩ he
    obtain ⟨d, hd, hsignature⟩ := Option.map_eq_some_iff.1 ((h.method_iff _ _).1 (mem_symbols_iff.1 he))
    have hname : d.name = name := by simpa using List.find?_some hd
    subst hname
    exact ⟨d, by rw [← hsignature], hd⟩
  obtain ⟨ms, hms, hfirst⟩ := (Comp.exists_forall₂_iff _).2 hentry
  have hentries : (parseAllMethodSymbolsFromCtags lines).entries = ms.map fun d => (d.name, d.signature) := by
    rw [← List.forall₂_eq_eq_eq, List.forall₂_map_right_iff]
    exact hms
  refine ⟨ms, ?_, fun d => ⟨hfirst d, fun hd => ?_⟩, hentries⟩
  · have hsorted := (parseAllMethodSymbolsFromCtags lines).sorted
    rw [hentries, List.pairwise_map] at hsorted
    rwa [List.pairwise_map]
  · have hmem : (d.name, d.signature) ∈ (parseAllMethodSymbolsFromCtags lines).entries :=
      mem_symbols_iff.2 ((h.method_iff _ _).2 (by rw [hd]; rfl))
    rw [hentries] at hmem
    obtain ⟨d', hd', heq⟩ := List.mem_map.1 hmem
    have hfind := hfirst d' hd'
    rw [Declares, (Prod.mk.inj heq).1, hd] at hfind
    rwa [Option.some.inj hfind]

theorem eachMethod_returns (hentries : symbols.entries = ms.map fun d => (d.name, d.signature))
    {f : string → string → Comp string} {g : Declared → string}
    (hf : ∀ d ∈ ms, (f d.name d.signature).Returns (g d)) : (eachMethod f symbols).Returns (ms.flatMap g) := by
  refine eachMethod_returns_iff.2 ⟨ms.map g, ?_, List.flatMap_def⟩
  rw [hentries, List.forall₂_map_left_iff, List.forall₂_map_right_iff, List.forall₂_same]
  exact hf

end

/-- Nothing is replaced in the signature, and the name stands in it once. -/
structure Declared.Plain (d : Declared) : Prop where
  clean : Clean d.signature
  pre : ¬ d.name <:+: d.pre
  rest : ¬ d.name <:+: d.rest

namespace Declared
variable (className : string) (d : Declared)

def onCall : string := onCallStatement (wildcards (countMethodParams d.signature)) d.name className

def mockMethod : string := mockMethodStatement (to_string (countMethodParams d.signature)) d.name d.types

def test : string := fill methodStubTemplate methodStubMarks
  [d.signature, className ++ "Test".toList, d.name, className ++ "Mock".toList]

namespace Plain
variable {className d} (h : d.Plain)
include h

theorem name : Clean d.name := h.clean.of_infix ⟨d.pre, '(' :: d.rest, rfl⟩

theorem types : Clean d.types := by
  have hparen : ∀ mark ∈ Mark.all.map Mark.text ++ fileMarks, '(' ∉ mark := by decide +kernel
  intro mark hmark hin
  rcases (d.infix_types_iff (hparen mark hmark)).1 hin with hin | hin
  · exact h.clean mark hmark (hin.trans ⟨[], d.name ++ '(' :: d.rest, by simp [signature]⟩)
  · exact h.clean mark hmark (hin.trans ⟨d.pre ++ d.name ++ ['('], [], by simp [signature]⟩)

theorem onCall_returns (hclass : Clean className) :
    (onCallStubOf className d.name d.signature).Returns (d.onCall className) := by
  rw [onCall, ← fill_onCallTemplate, ← paramSig_eq_wildcards]
  exact onCallStubOf_returns_iff.2 ⟨h.name.mark .methodName, d.name, .done (h.name.mark .paramSig),
    hclass.mark .origClass, d.name, .done (h.name.mark .origClass), rfl⟩

theorem mockMethod_returns : (mockMethodStubOf d.name d.signature).Returns d.mockMethod := by
  rw [mockMethod, ← fill_mockMethodTemplate]
  exact mockMethodStubOf_returns_iff.2 ⟨d.types, d.rewrites_name h.pre h.rest, h.name.mark .methodName,
    h.types.mark .signature, d.name, .done (h.name.mark .signature), d.name, .done (h.name.mark .paramCount),
    d.types, .done (h.types.mark .paramCount), rfl⟩

theorem test_returns (hclass : Clean className) : (methodStubOf (className ++ "Test".toList)
    (className ++ "Mock".toList) d.name d.signature).Returns (d.test className) :=
  methodStubOf_returns_iff.2 ⟨h.name.mark .methodName, h.clean.mark .signature, d.name,
    .done (h.name.mark .signature), hclass.test.mark .testClassName, d.signature,
    .done (h.clean.mark .testClassName), d.name, .done (h.name.mark .testClassName),
    hclass.mock.mark .mockClassName, d.signature, .done (h.clean.mark .mockClassName), _,
    .done (hclass.test.mark .mockClassName), d.name, .done (h.name.mark .mockClassName), rfl⟩

end Plain

end Declared

/-! ### The blocks -/

def testFixture (className : string) : string := fill testFixtureTemplate fixtureMarks
  [className ++ "Test".toList, className ++ "Test".toList, className ++ "Test".toList, className,
    className ++ "Test".toList]

def mockOf (className : string) (ms : List Declared) : string :=
  mockClass (className ++ "Mock".toList) className (ms.flatMap (·.onCall className)) (ms.flatMap (·.mockMethod))

def testsOf (className : string) (ms : List Declared) : string := unitTestHeader ++ ms.flatMap (·.test className)

def testFile (path className : string) (ms : List Declared) : string :=
  fill gtestFileTemplate fileMarks [path, join [testFixture className, geneAssertionsStub, geneMatcherStub,
    mockOf className ms, testsOf className ms] "\n".toList]

section
variable {className : string} {ms : List Declared} (hclass : Clean className) (hms : ∀ d ∈ ms, d.Plain)

/-- Statements that begin on a new line keep apart. -/
theorem infix_flatMap_iff {mark : string} {f : Declared → string} (hne : mark ≠ []) (hnl : '\n' ∉ mark)
    (hf : ∀ d ∈ ms, (f d).head? = some '\n') : mark <:+: ms.flatMap f ↔ ∃ d ∈ ms, mark <:+: f d := by
  have hhead : ∀ w ∈ ms.map f, w.head? = some '\n' := by
    intro w hw
    obtain ⟨d, hd, rfl⟩ := List.mem_map.1 hw
    exact hf d hd
  rw [List.flatMap_def, infix_flatten hne hnl hhead]
  simp only [List.mem_map, exists_exists_and_eq_and]

theorem onCall_head (d : Declared) : (d.onCall className).head? = some '\n' := by
  have hmark : Mark.onCallStub.text ∈ [Mark.methodName, Mark.paramSig, Mark.origClass, Mark.onCallStub,
    Mark.mockMethodStub].map Mark.text := by simp
  rw [Declared.onCall, ← fill_onCallTemplate, onCallTemplate_marks.head?_fill hmark]
  exact onCallTemplate_ends.1

theorem mockMethod_head (d : Declared) : d.mockMethod.head? = some '\n' := by
  have hmark : Mark.signature.text ∈
    [Mark.methodName, Mark.signature, Mark.paramCount, Mark.mockMethodStub].map Mark.text := by simp
  rw [Declared.mockMethod, ← fill_mockMethodTemplate, mockMethodTemplate_marks.head?_fill hmark]
  exact mockMethodTemplate_ends.1

theorem test_head (d : Declared) : (d.test className).head? = some '\n' := by
  have hmark : blocksMark ∈ [blocksMark] := List.mem_singleton_self _
  rw [Declared.test, blocksMark_templates.2.2.2.head?_fill hmark]
  exact newline_heads.1

theorem not_infix_wildcards {mark : string} (h : '$' ∈ mark) (n : ℕ) : ¬ mark <:+: wildcards n := by
  rw [← paramSig_eq_wildcards]
  exact not_infix_paramSig h (by decide) (by decide) n

theorem not_infix_to_string {mark : string} (h : '$' ∈ mark) (n : ℕ) : ¬ mark <:+: to_string n :=
  fun hin => not_mem_to_string (by decide) n (hin.subset h)

include hclass hms

theorem onCalls_free {mark : string} (hmark : mark = Mark.onCallStub.text ∨ mark = Mark.mockMethodStub.text ∨
    mark = blocksMark) : ¬ mark <:+: ms.flatMap (·.onCall className) := by
  have hmem : mark ∈ Mark.all.map Mark.text ++ fileMarks ∧ mark ≠ [] ∧ '\n' ∉ mark ∧ '$' ∈ mark := by
    rcases hmark with rfl | rfl | rfl <;> decide +kernel
  obtain ⟨hall, hne, hnl, hdollar⟩ := hmem
  rw [infix_flatMap_iff hne hnl fun d _ => onCall_head d]
  rintro ⟨d, hd, hin⟩
  have hfill : mark <:+: d.onCall className ↔
      ∃ h ∈ [d.name, wildcards (countMethodParams d.signature), className, d.name], mark <:+: h := by
    rw [Declared.onCall, ← fill_onCallTemplate]
    rcases hmark with rfl | rfl | rfl
    · exact onCallTemplate_marks.infix_fill (by simp) rfl
    · exact onCallTemplate_marks.infix_fill (by simp) rfl
    · exact blocksMark_templates.1.infix_fill (by simp) rfl
  obtain ⟨w, hw, hmark'⟩ := hfill.1 hin
  have hname := (hms d hd).name mark hall
  simp only [List.mem_cons, List.not_mem_nil, or_false] at hw
  rcases hw with rfl | rfl | rfl | rfl
  exacts [hname hmark', not_infix_wildcards hdollar _ hmark', hclass mark hall hmark', hname hmark']

omit hclass in
theorem mockMethods_free {mark : string} (hmark : mark = Mark.mockMethodStub.text ∨ mark = blocksMark) :
    ¬ mark <:+: ms.flatMap (·.mockMethod) := by
  have hmem : mark ∈ Mark.all.map Mark.text ++ fileMarks ∧ mark ≠ [] ∧ '\n' ∉ mark ∧ '$' ∈ mark := by
    rcases hmark with rfl | rfl <;> decide +kernel
  obtain ⟨hall, hne, hnl, hdollar⟩ := hmem
  rw [infix_flatMap_iff hne hnl fun d _ => mockMethod_head d]
  rintro ⟨d, hd, hin⟩
  have hfill : mark <:+: d.mockMethod ↔
      ∃ h ∈ [to_string (countMethodParams d.signature), d.name, d.types], mark <:+: h := by
    rw [Declared.mockMethod, ← fill_mockMethodTemplate]
    rcases hmark with rfl | rfl
    · exact mockMethodTemplate_marks.infix_fill (by simp) rfl
    · exact blocksMark_templates.2.1.infix_fill (by simp) rfl
  obtain ⟨w, hw, hmark'⟩ := hfill.1 hin
  simp only [List.mem_cons, List.not_mem_nil, or_false] at hw
  rcases hw with rfl | rfl | rfl
  exacts [not_infix_to_string hdollar _ hmark', (hms d hd).name mark hall hmark', (hms d hd).types mark hall hmark']

theorem mockOf_returns {symbols : MethodSymbols} (hentries : symbols.entries = ms.map fun d => (d.name, d.signature)) :
    (geneMockStub className (className ++ "Mock".toList) symbols).Returns (mockOf className ms) := by
  unfold mockOf
  generalize honCalls : ms.flatMap (·.onCall className) = onCalls
  generalize hmockMethods : ms.flatMap (·.mockMethod) = mockMethods
  have honCall : ¬ Mark.onCallStub.text <:+: onCalls := honCalls ▸ onCalls_free hclass hms (.inl rfl)
  have hfree : ¬ Mark.mockMethodStub.text <:+: onCalls := honCalls ▸ onCalls_free hclass hms (.inr (.inl rfl))
  have hmethod : ¬ Mark.mockMethodStub.text <:+: mockMethods := hmockMethods ▸ mockMethods_free hms (.inl rfl)
  have hput : Rewrites Mark.onCallStub.text onCalls
      (fill mockStubTemplate mockStubMarks [className ++ "Mock".toList, className ++ "Mock".toList, className,
        className ++ "Mock".toList, Mark.onCallStub.text, Mark.mockMethodStub.text, className])
      (mockClass (className ++ "Mock".toList) className onCalls Mark.mockMethodStub.text) := by
    have hmock : Rewrites Mark.onCallStub.text onCalls _ _ := .done (hclass.mock.mark .onCallStub)
    have horig : Rewrites Mark.onCallStub.text onCalls _ _ := .done (hclass.mark .onCallStub)
    refine (mockStubTemplate_marks.rewrites_fill (by simp) (by rfl)).2 ⟨_, ?_, rfl⟩
    exact .cons hmock <| .cons hmock <| .cons horig <| .cons hmock <| .cons (.self (Mark.ne_nil _) honCall) <|
      .cons (.done (Mark.apart (by decide))) <| .cons horig .nil
  have hput' : Rewrites Mark.mockMethodStub.text mockMethods
      (mockClass (className ++ "Mock".toList) className onCalls Mark.mockMethodStub.text)
      (mockClass (className ++ "Mock".toList) className onCalls mockMethods) := by
    have hmock : Rewrites Mark.mockMethodStub.text mockMethods _ _ := .done (hclass.mock.mark .mockMethodStub)
    have horig : Rewrites Mark.mockMethodStub.text mockMethods _ _ := .done (hclass.mark .mockMethodStub)
    refine (mockStubTemplate_marks.rewrites_fill (by simp) (by rfl)).2 ⟨_, ?_, rfl⟩
    exact .cons hmock <| .cons hmock <| .cons horig <| .cons hmock <| .cons (.done hfree) <|
      .cons (.self (Mark.ne_nil _) hmethod) <| .cons horig .nil
  rw [geneMockStub_eq]
  simp only [Comp.returns_bind_iff, replaceIn_returns_iff]
  exact ⟨_, honCalls ▸ eachMethod_returns hentries fun d hd => (hms d hd).onCall_returns hclass,
    _, hmockMethods ▸ eachMethod_returns hentries fun d hd => (hms d hd).mockMethod_returns,
    _, mockStub_mockClassName.2 ⟨hclass.mock.mark .mockClassName, rfl⟩,
    _, (mockStub_origClassName fun h => absurd h (hclass.mock.mark .origClassName)).2
      ⟨hclass.mark .origClassName, rfl⟩, _, hput, hput'⟩

theorem testsOf_returns {symbols : MethodSymbols}
    (hentries : symbols.entries = ms.map fun d => (d.name, d.signature)) :
    (geneGtestMethodStub (className ++ "Test".toList) (className ++ "Mock".toList) symbols).Returns
      (testsOf className ms) := by
  have hgene : geneGtestMethodStub (className ++ "Test".toList) (className ++ "Mock".toList) symbols = do
    return unitTestHeader ++ (← eachMethod (methodStubOf (className ++ "Test".toList)
      (className ++ "Mock".toList)) symbols) := rfl
  rw [hgene, Comp.returns_bind_iff]
  exact ⟨_, eachMethod_returns hentries fun d hd => (hms d hd).test_returns hclass, Comp.returns_pure_iff.2 rfl⟩

/-! ### The blocks in the file -/

theorem blocksMark_mockOf : ¬ blocksMark <:+: mockOf className ms := by
  rw [mockOf, mockClass, blocksMark_templates.2.2.1.infix_fill (by simp) (by rfl)]
  rintro ⟨w, hw, hin⟩
  simp only [List.mem_cons, List.not_mem_nil, or_false] at hw
  rcases hw with rfl | rfl | rfl | rfl | rfl | rfl | rfl
  exacts [hclass.mock.blocks hin, hclass.mock.blocks hin, hclass.blocks hin, hclass.mock.blocks hin,
    onCalls_free hclass hms (.inr (.inr rfl)) hin, mockMethods_free hms (.inr rfl) hin, hclass.blocks hin]

theorem blocksMark_testsOf : ¬ blocksMark <:+: testsOf className ms := by
  have hhead : ∀ w ∈ unitTestHeader :: ms.map (·.test className), w.head? = some '\n' := by
    intro w hw
    rcases List.mem_cons.1 hw with rfl | hw
    · exact newline_heads.2
    · obtain ⟨d, -, rfl⟩ := List.mem_map.1 hw
      exact test_head d
  have hflat : testsOf className ms = (unitTestHeader :: ms.map (·.test className)).flatten := by
    rw [List.flatten_cons, ← List.flatMap_def]; rfl
  rw [hflat, infix_flatten (by decide) (by decide) hhead]
  rintro ⟨w, hw, hin⟩
  rcases List.mem_cons.1 hw with rfl | hw
  · exact blocksMark_free.2.2 hin
  obtain ⟨d, hd, rfl⟩ := List.mem_map.1 hw
  rw [Declared.test, blocksMark_templates.2.2.2.infix_fill (by simp) (by rfl)] at hin
  obtain ⟨w, hw, hin⟩ := hin
  simp only [List.mem_cons, List.not_mem_nil, or_false] at hw
  rcases hw with rfl | rfl | rfl | rfl
  exacts [(hms d hd).clean.blocks hin, hclass.test.blocks hin, (hms d hd).name.blocks hin, hclass.mock.blocks hin]

omit hms in
theorem testFixture_returns :
    (geneGtestTestFixtureClassStub className (className ++ "Test".toList)).Returns (testFixture className) := by
  have hput : Rewrites Mark.testClassName.text (className ++ "Test".toList) (fill testFixtureTemplate fixtureMarks
      fixtureMarks) (fill testFixtureTemplate fixtureMarks [className ++ "Test".toList, className ++ "Test".toList,
        className ++ "Test".toList, Mark.origClassName.text, className ++ "Test".toList]) := by
    have htest := Rewrites.self (Mark.ne_nil .testClassName) (hclass.test.mark .testClassName)
    refine (fileTemplates.1.rewrites_fill (by simp) (by rfl)).2 ⟨_, ?_, rfl⟩
    exact .cons htest <| .cons htest <| .cons htest <| .cons (.done (Mark.apart (by decide))) <| .cons htest .nil
  have hput' : Rewrites Mark.origClassName.text className (fill testFixtureTemplate fixtureMarks
      [className ++ "Test".toList, className ++ "Test".toList, className ++ "Test".toList, Mark.origClassName.text,
        className ++ "Test".toList]) (testFixture className) := by
    have htest : Rewrites Mark.origClassName.text className _ _ := .done (hclass.test.mark .origClassName)
    refine (fileTemplates.1.rewrites_fill (by simp) (by rfl)).2 ⟨_, ?_, rfl⟩
    exact .cons htest <| .cons htest <| .cons htest <|
      .cons (.self (Mark.ne_nil _) (hclass.mark .origClassName)) <| .cons htest .nil
  rw [fileTemplates.1.fill_marks] at hput
  unfold geneGtestTestFixtureClassStub
  simp only [Comp.returns_bind_iff, replaceIn_returns_iff]
  exact ⟨_, hput, hput'⟩

omit hms in
theorem blocksMark_testFixture : ¬ blocksMark <:+: testFixture className := by
  rw [testFixture, fileTemplates.1.infix_fill (by simp) (by rfl)]
  rintro ⟨w, hw, hin⟩
  simp only [List.mem_cons, List.not_mem_nil, or_false] at hw
  rcases hw with rfl | rfl | rfl | rfl | rfl
  exacts [hclass.test.blocks hin, hclass.test.blocks hin, hclass.test.blocks hin, hclass.blocks hin,
    hclass.test.blocks hin]

end

theorem infix_join {mark : string} (hnl : '\n' ∉ mark) {blocks : List string} {a : string}
    (h : mark <:+: join (a :: blocks) "\n".toList) : mark <:+: a ∨ ∃ b ∈ blocks, mark <:+: b := by
  have hfold : ∀ a : string, mark <:+: blocks.foldl (fun accu element => accu ++ "\n".toList ++ element) a →
      mark <:+: a ∨ ∃ b ∈ blocks, mark <:+: b := by
    clear h
    induction blocks with
    | nil => exact fun a h => .inl h
    | cons b blocks ih =>
      intro a h
      rcases ih _ h with h | ⟨c, hc, h⟩
      · have h : mark <:+: a ++ '\n' :: b := by simpa using h
        rcases (infix_append_cons hnl a b).1 h with h | h
        exacts [.inl h, .inr ⟨b, List.mem_cons_self, h⟩]
      · exact .inr ⟨c, List.mem_cons_of_mem _ hc, h⟩
  exact hfold a h

section
variable {path className : string} {ms : List Declared} (hpath : Clean path) (hclass : Clean className)
  (hms : ∀ d ∈ ms, d.Plain)
include hpath hclass hms

theorem testFile_returns : (geneGtestFileStub path [testFixture className, geneAssertionsStub, geneMatcherStub,
    mockOf className ms, testsOf className ms]).Returns (testFile path className ms) := by
  have hblocks : ¬ blocksMark <:+: join [testFixture className, geneAssertionsStub, geneMatcherStub,
      mockOf className ms, testsOf className ms] "\n".toList := by
    have hall : ∀ b ∈ [geneAssertionsStub, geneMatcherStub, mockOf className ms, testsOf className ms],
        ¬ blocksMark <:+: b := by
      simp only [List.forall_mem_cons]
      exact ⟨blocksMark_free.1, blocksMark_free.2.1, blocksMark_mockOf hclass hms, blocksMark_testsOf hclass hms,
        nofun⟩
    intro h
    rcases infix_join (by decide) h with h | ⟨b, hb, h⟩
    exacts [blocksMark_testFixture hclass h, hall b hb h]
  have hput : Rewrites pathMark path (fill gtestFileTemplate fileMarks fileMarks)
      (fill gtestFileTemplate fileMarks [path, blocksMark]) := by
    refine (fileTemplates.2.rewrites_fill (by simp [fileMarks]) (by rfl)).2 ⟨_, ?_, rfl⟩
    exact .cons (.self (by decide) hpath.path) <| .cons (.done (by decide)) .nil
  have hput' : Rewrites blocksMark (join [testFixture className, geneAssertionsStub, geneMatcherStub,
      mockOf className ms, testsOf className ms] "\n".toList) (fill gtestFileTemplate fileMarks [path, blocksMark])
      (testFile path className ms) := by
    refine (fileTemplates.2.rewrites_fill (by simp [fileMarks]) (by rfl)).2 ⟨_, ?_, rfl⟩
    exact .cons (.done hpath.blocks) <| .cons (.self (by decide) hblocks) .nil
  rw [fileTemplates.2.fill_marks] at hput
  unfold geneGtestFileStub
  simp only [Comp.returns_bind_iff, replaceIn_returns_iff]
  exact ⟨_, hput, hput'⟩

end

theorem gtestFileStub_returns (p : ClassPath) (hpath : Clean p.path) {lines : List string} {ms : List Declared}
    (hentries : (parseAllMethodSymbolsFromCtags lines).entries = ms.map fun d => (d.name, d.signature))
    (hms : ∀ d ∈ ms, d.Plain) : (gtestFileStub p.path lines).Returns (testFile p.path p.className ms) := by
  have hclass := hpath.of_infix p.className_infix
  unfold gtestFileStub geneStubs
  simp only [Comp.returns_bind_iff, Comp.returns_pure_iff, p.getClassNameFromPath_path]
  exact ⟨_, testFixture_returns hclass, _, ⟨_, mockOf_returns hclass hms hentries,
    _, testsOf_returns hclass hms hentries, rfl⟩, testFile_returns hpath hclass hms⟩

theorem main_again {fs : FileSystem} {path : string} (h : fs.opens (geneGtestFilePath path))
    (program ctagsSymbolFile : string) : (main fs [program, ctagsSymbolFile, path]).Returns (some (fs, 1)) := by
  rw [main, if_pos h, Comp.returns_pure_iff]

/-- The run on a class whose declarations are `ds`. -/
theorem main_writes_testFile (fs : FileSystem) (program ctagsSymbolFile : string) (p : ClassPath) (ds : List Declared)
    (hpath : Clean p.path) (hds : ∀ d ∈ ds, d.Plain)
    (hlines : Lists (findSymbolLinesInCtags fs ctagsSymbolFile p.path) ds)
    (hmakes : (fs.makes (geneGtestFilePath p.path)).isSome) :
    ∃ (ms : List Declared) (fs' : FileSystem) (i : ℕ), (ms.map (·.name)).Pairwise (· < ·) ∧
      (∀ d, d ∈ ms ↔ Declares ds d) ∧
      (main fs [program, ctagsSymbolFile, p.path]).Returns (some (fs', 0)) ∧ fs.Keeps fs' ∧
      fs'.find (geneGtestFilePath p.path) = some i ∧ fs'.content i = some (testFile p.path p.className ms) ∧
      (main fs' [program, ctagsSymbolFile, p.path]).Returns (some (fs', 1)) := by
  obtain ⟨ms, hsorted, hfirst, hentries⟩ := hlines.exists_methods
  have hms : ∀ d ∈ ms, d.Plain := fun d hd => hds d (List.mem_of_find?_eq_some ((hfirst d).1 hd))
  obtain ⟨first, tags, hmethods, -⟩ := hlines
  obtain ⟨d, hd⟩ := Option.isSome_iff_exists.1 hmakes
  have hfind : fs.find (geneGtestFilePath p.path) = none := by
    rw [FileSystem.makes] at hd
    split_ifs at hd with hnone
    rwa [Option.not_isSome_iff_eq_none] at hnone
  have hnonempty : methodLines (findSymbolLinesInCtags fs ctagsSymbolFile p.path) ≠ [] := by
    rw [hmethods]
    exact List.cons_ne_nil _ _
  have hfound : findSymbolLinesInCtags fs ctagsSymbolFile p.path ≠ [] := by
    intro h
    rw [h] at hnonempty
    exact hnonempty rfl
  have hopens : ¬ fs.opens (geneGtestFilePath p.path) := by
    rw [FileSystem.opens, hfind]
    exact Bool.false_ne_true
  have hwrite : fs.overwrite (geneGtestFilePath p.path) (testFile p.path p.className ms) =
      some (fs.make d (FileSystem.lastName (geneGtestFilePath p.path)) (testFile p.path p.className ms)) := by
    rw [FileSystem.overwrite, FileSystem.truncates, hfind, hd]; rfl
  have hnode : (fs.make d (FileSystem.lastName (geneGtestFilePath p.path))
      (testFile p.path p.className ms)).nodes[fs.nodes.length]? =
        some (.file (testFile p.path p.className ms) true true) := List.getElem?_concat_length
  refine ⟨ms, fs.make d (FileSystem.lastName (geneGtestFilePath p.path)) (testFile p.path p.className ms),
    fs.nodes.length, hsorted, hfirst,
    (main_returns_iff program hopens hfound hnonempty _).2 ⟨_, gtestFileStub_returns p hpath hentries hms, ?_⟩,
    FileSystem.keeps_make _ _ _, FileSystem.find_make hd _, ?_, main_again ?_ program ctagsSymbolFile⟩
  · rw [outputGtestStubFileToPath, hwrite]
  · rw [FileSystem.content, hnode]; rfl
  · rw [FileSystem.opens, FileSystem.find_make hd, Option.any_some, FileSystem.canRead, hnode]

def pipeHeader : ClassPath where
  dir := "src".toList
  className := "Pipe".toList
  extension := "h".toList
  dir_ne := by decide
  className_ne := pipeTag.name_ne
  className_free := by decide
  extension_ne := pipePath.extension_ne
  extension_free := by decide
  line := forall_mem_of_all (by decide)

def sendTag : MethodTag := { startTag with
  name := pipeSend.name
  path := "src/Pipe.h".toList
  signature := pipeSend.signature
  name_ne := by decide
  name_any := forall_mem_of_all (by decide)
  path_any := forall_mem_of_all (by decide)
  signature_ne := by decide
  signature_starts := by decide
  signature_any := forall_mem_of_all (by decide) }

/-- The constructor and `send` are listed in `.tags`; there is a directory for the test file. -/
def taggedFiles : FileSystem where
  nodes := [.directory true true, .file (("Pipe\tsrc/Pipe.h\t/^  Pipe() \x7b$/;\"\tf\tclass:Pipe\n").toList ++
    sendTag.line ++ ['\n']) true true, .directory true true, .directory true true]
  entry d name :=
    if d = 0 ∧ name = ".tags".toList then some 1
    else if d = 0 ∧ name = "test".toList then some 2
    else if d = 2 ∧ name = "src".toList then some 3
    else none
  root := 0
  cwd := 0
  entry_lt d name i h := by
    split_ifs at h <;> (obtain rfl := Option.some.inj h; decide)

theorem lists_taggedFiles : Lists (findSymbolLinesInCtags taggedFiles ".tags".toList pipeHeader.path) [pipeSend] :=
  ⟨"Pipe\tsrc/Pipe.h\t/^  Pipe() \x7b$/;\"\tf\tclass:Pipe".toList, [sendTag], by decide +kernel,
    List.forall_mem_singleton.2 ⟨rfl, by decide, by decide⟩, rfl⟩

theorem main_writes_testFile_pipe : ∃ (ms : List Declared) (fs' : FileSystem) (i : ℕ),
    (ms.map (·.name)).Pairwise (· < ·) ∧ (∀ d, d ∈ ms ↔ Declares [pipeSend] d) ∧
    (main taggedFiles ["gene-gtest-stub.out".toList, ".tags".toList, pipeHeader.path]).Returns (some (fs', 0)) ∧
    taggedFiles.Keeps fs' ∧ fs'.find (geneGtestFilePath pipeHeader.path) = some i ∧
    fs'.content i = some (testFile pipeHeader.path pipeHeader.className ms) ∧
    (main fs' ["gene-gtest-stub.out".toList, ".tags".toList, pipeHeader.path]).Returns (some (fs', 1)) := by
  refine main_writes_testFile taggedFiles "gene-gtest-stub.out".toList ".tags".toList pipeHeader [pipeSend]
    (by unfold Clean; decide +kernel) ?_ lists_taggedFiles (by decide +kernel)
  intro d hd
  rw [List.mem_singleton.1 hd]
  exact ⟨by unfold Clean; decide +kernel, by decide, by decide⟩

end CWorkspace.Stub
