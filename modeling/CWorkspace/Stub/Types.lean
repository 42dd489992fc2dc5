import CWorkspace.Stub.Params
import CWorkspace.Stub.Terminates

/-!
# The types of a mocked method

The second argument of `MOCK_METHOD` is the signature without the name of the method, which `replaceAll` takes
out of it wherever its letters occur. `keeps_types_iff` says when `gene_mock_stub` returns with nothing gone but
the name.
-/

namespace CWorkspace.Stub

def IsIdentifier (name : string) : Prop := name ≠ [] ∧ (∀ c ∈ name, isWordChar c) ∧ ∀ c ∈ name.head?, c.isDigit = false

/-- A signature with the name of the method in it: as a whole word, its parameter list behind it. -/
structure Declared where
  pre : string
  name : string
  rest : string
  identifier : IsIdentifier name
  boundary : ∀ c ∈ pre.getLast?, isWordChar c = false

namespace Declared
variable (d : Declared)

def signature : string := d.pre ++ d.name ++ '(' :: d.rest

/-- What is left without the name. -/
def types : string := d.pre ++ '(' :: d.rest

theorem not_mem_name {c : Char} (h : isWordChar c = false) : c ∉ d.name := fun hc => by
  rw [d.identifier.2.1 c hc] at h
  cases h

theorem infix_types_iff {pat : string} (h : '(' ∉ pat) : pat <:+: d.types ↔ pat <:+: d.pre ∨ pat <:+: d.rest :=
  infix_append_cons h _ _

theorem first_name (h : ¬ d.name <:+: d.pre) : First d.name d.pre := by
  rcases List.eq_nil_or_concat d.pre with hpre | ⟨p, c, hpre⟩
  · rw [hpre]
    exact first_nil d.identifier.1
  · rw [List.concat_eq_append] at hpre
    have hc := d.not_mem_name (d.boundary c (by rw [hpre]; exact List.getLast?_concat))
    rw [hpre] at h ⊢
    refine (first_append_cons hc p []).2 ⟨fun hp => h (hp.trans (List.prefix_append _ _).isInfix), ?_⟩
    exact first_nil d.identifier.1

theorem rewrites_name (hpre : ¬ d.name <:+: d.pre) (hrest : ¬ d.name <:+: d.rest) :
    Rewrites d.name [] d.signature d.types := by
  refine .step (d.first_name hpre) ?_
  rw [List.append_nil]
  refine .done fun h => ?_
  rcases (d.infix_types_iff (d.not_mem_name (by decide))).1 h with h | h
  exacts [hpre h, hrest h]

end Declared

/-! ### The statement -/

def mockMethodStatement (paramCount name sig : string) : string :=
  "\n          MOCK_METHOD".toList ++ paramCount ++ "(".toList ++ (name ++ ", ".toList ++ sig) ++ ");".toList

set_option maxRecDepth 8000 in
theorem fill_mockMethodTemplate (paramCount name sig : string) :
    fill mockMethodTemplate mockMethodMarks [paramCount, name, sig] = mockMethodStatement paramCount name sig := by
  have hcut : cut mockMethodMarks mockMethodTemplate =
      ["\n          MOCK_METHOD".toList, "(".toList, ", ".toList, ");".toList] := by
    have h : mockMethodTemplate = _ := String.toList_ofList
    rw [h]
    decide +kernel
  have hholes : ∀ a b c e : string, weave a [b, c, e] [paramCount, name, sig] =
      a ++ paramCount ++ b ++ (name ++ c ++ sig) ++ e := by
    intro a b c e
    simp [weave, holes]
  show weave ((cut mockMethodMarks mockMethodTemplate).headD []) (cut mockMethodMarks mockMethodTemplate).tail _ = _
  rw [hcut]
  exact hholes _ _ _ _

theorem mockMethodStatement_inj {paramCount name sig name' sig' : string} :
    mockMethodStatement paramCount name sig = mockMethodStatement paramCount name' sig' ↔
      name ++ ", ".toList ++ sig = name' ++ ", ".toList ++ sig' := by
  unfold mockMethodStatement
  generalize "\n          MOCK_METHOD".toList = before
  generalize ");".toList = after
  rw [List.append_left_inj, List.append_right_inj]

/-- What has no comma and no space does not reach from one argument to the other. -/
theorem infix_arguments_iff {pat name sig : string} (hne : pat ≠ []) (hcomma : ',' ∉ pat) (hspace : ' ' ∉ pat) :
    pat <:+: name ++ ", ".toList ++ sig ↔ pat <:+: name ∨ pat <:+: sig := by
  have h := infix_append_cons hspace [] sig
  rw [List.nil_append] at h
  rw [List.append_assoc]
  show pat <:+: name ++ ',' :: (' ' :: sig) ↔ _
  rw [infix_append_cons hcomma, h, List.infix_nil, or_iff_right hne]

/-- Of two pairs of arguments that read the same, the longer second one has a comma of the other first one. -/
theorem arguments_cases {name sig name' sig' : string}
    (h : name ++ ", ".toList ++ sig = name' ++ ", ".toList ++ sig') (hlen : sig'.length ≤ sig.length) :
    sig' = sig ∨ ∃ part, sig = part ++ ", ".toList ++ sig' ∧ name' = name ++ ", ".toList ++ part := by
  rcases List.append_eq_append_iff.1 h with ⟨c, hname, rfl⟩ | ⟨c, -, rfl⟩
  · rcases List.append_eq_append_iff.1 hname with ⟨part, hname', hc⟩ | ⟨part, rfl, rfl⟩
    · -- what is more in the second argument begins in the comma and the space
      match part, hc with
      | [], hc =>
        obtain rfl : c = ", ".toList := hc.symm
        rw [List.append_nil] at hname'
        exact .inr ⟨[], rfl, by rw [List.append_nil, hname']⟩
      | [d], hc =>
        obtain rfl : ',' = d := (List.cons.inj hc).1
        have hlast := congrArg List.getLast? hname'
        rw [List.getLast?_concat, show ", ".toList = [','] ++ [' '] from rfl, ← List.append_assoc,
          List.getLast?_concat] at hlast
        exact absurd hlast (by decide)
      | d :: e :: part, hc =>
        obtain ⟨-, hc⟩ := List.cons.inj (show ',' :: [' '] = d :: (e :: (part ++ c)) from hc)
        obtain ⟨-, hc⟩ := List.cons.inj hc
        obtain rfl := (List.append_eq_nil_iff.1 hc.symm).2
        exact .inl rfl
    · exact .inr ⟨part, rfl, rfl⟩
  · rw [List.length_append] at hlen
    obtain rfl := List.length_eq_zero_iff.1 (by omega : c.length = 0)
    exact .inl rfl

theorem length_paramCount_le (signature : string) : (to_string (countMethodParams signature)).length ≤ 10 := by
  have hlt : countMethodParams signature < 2 ^ 32 := by
    unfold countMethodParams
    dsimp only
    split_ifs
    · exact Nat.mod_lt _ (by decide)
    · decide
    · decide
  exact (Nat.length_toDigits_le_iff (by decide) (by decide)).2 (by omega)

theorem Declared.length_le (d : Declared) {count left sig : string} (hleft : Rewrites d.name [] d.signature left)
    (hsig : Rewrites Mark.paramCount.text count left sig) (hcount : count.length ≤ 10) :
    sig.length ≤ d.types.length ∧ (sig = d.types → left = d.types) := by
  have hlen := hleft.length_add_le (Nat.zero_le _) ⟨d.pre, '(' :: d.rest, rfl⟩
  simp only [Declared.signature, Declared.types, List.length_append, List.length_nil] at hlen ⊢
  have hmark : Mark.paramCount.text.length = 22 := by decide
  have hle := hsig.length_le (by omega)
  refine ⟨by omega, fun h => ?_⟩
  have hfree : ¬ Mark.paramCount.text <:+: left := by
    intro hin
    have hshort := hsig.length_add_le (by omega) hin
    rw [h, List.length_append] at hshort
    omega
  rw [← h, hsig.eq_of_free hfree]

theorem statement_in_mock {orig mock r : string} {symbols : MethodSymbols}
    (h : (geneMockStub orig mock symbols).Returns r) {name signature : string}
    (hm : (name, signature) ∈ symbols.entries) :
    ∃ statement, (mockMethodStubOf name signature).Returns statement ∧ statement <:+: r := by
  obtain ⟨_, onCallStub, stub, m, o, -, hstub, -, hr⟩ := geneMockStub_returns h
  obtain ⟨statements, hall, rfl⟩ := eachMethod_returns_iff.1 hstub
  obtain ⟨statement, hstatement, hmem⟩ := (Comp.exists_forall₂_iff (Q := (· ∈ statements)) _).1
    ⟨statements, hall, fun _ => id⟩ _ hm
  refine ⟨statement, hstatement, (List.infix_of_mem_flatten hmem).trans ?_⟩
  rw [hr]
  exact mockStubTemplate_marks.infix_of_mem (by rfl) (by simp)

section
variable (d : Declared)

theorem Declared.rewrites_name_iff :
    Rewrites d.name [] d.signature d.types ↔ ¬ d.name <:+: d.pre ∧ ¬ d.name <:+: d.rest := by
  refine ⟨fun h => ?_, fun h => d.rewrites_name h.1 h.2⟩
  have hfree := h.free
  rwa [d.infix_types_iff (d.not_mem_name (by decide)), not_or] at hfree

/-- The second argument is right exactly if the replacements before it are, and leave no mark in it. -/
theorem Declared.argument_iff : (∃ first, (mockMethodStubOf d.name d.signature).Returns
      (mockMethodStatement (to_string (countMethodParams d.signature)) first d.types)) ↔
    Rewrites d.name [] d.signature d.types ∧ ¬ Mark.methodName.text <:+: d.name ∧
      (¬ Mark.signature.text <:+: d.types ∧ ¬ Mark.paramCount.text <:+: d.types) ∧
      Settles Mark.signature.text d.types d.name := by
  have hcount := length_paramCount_le d.signature
  have hfence := fence_to_string .signature (countMethodParams d.signature)
  have hcomma : Fence [','] (to_string (countMethodParams d.signature)) :=
    fence_of_not_digit (by decide) (List.forall_mem_singleton.2 rfl) _
  have hdigits := not_mem_to_string (c := '_') (by decide) (countMethodParams d.signature)
  simp only [mockMethodStubOf_returns_iff, fill_mockMethodTemplate, mockMethodStatement_inj]
  generalize to_string (countMethodParams d.signature) = count at hcount hfence hcomma hdigits
  constructor
  · rintro ⟨first, left, hleft, hname, hsigl, n, hn, n', hn', sig', hsig', heq⟩
    obtain ⟨hle, hleft'⟩ := d.length_le hleft hsig' hcount
    rcases arguments_cases heq hle with rfl | ⟨part, htypes, hfirst⟩
    · obtain rfl := hleft' rfl
      exact ⟨hleft, hname, ⟨hsigl, hsig'.free⟩, n, hn⟩
    · -- a comma of the first argument has come with the signature put into the name
      have hmark : Mark.signature.text <:+: d.name := by
        by_contra hfree
        obtain rfl := hn.eq_of_free hfree
        refine hn'.not_infix_of_fence hcomma ?_ ?_
        · rw [List.singleton_infix_iff]
          exact d.not_mem_name (by decide)
        · rw [hfirst, List.singleton_infix_iff]
          simp
      -- but neither argument has that mark, nor the name with it
      have hfree : ∀ {pat : string}, pat ≠ [] → ',' ∉ pat → ' ' ∉ pat → ¬ pat <:+: n' → ¬ pat <:+: sig' →
          ¬ pat <:+: d.types := fun hne hc hs hn hsig h => by
        rw [htypes, infix_arguments_iff hne hc hs] at h
        exact h.elim (fun h => hn (hfirst ▸ h.trans (List.suffix_append _ _).isInfix)) hsig
      have hnot : ¬ d.name <:+: d.types := hfree d.identifier.1 (d.not_mem_name (by decide))
        (d.not_mem_name (by decide)) (fun h => hn'.not_infix_of_fence hfence hn.free (hmark.trans h))
        fun h => hsig'.not_infix_of_fence hfence hsigl (hmark.trans h)
      rw [d.infix_types_iff (d.not_mem_name (by decide)), not_or] at hnot
      obtain rfl := (d.rewrites_name_iff.2 hnot).unique hleft
      have hsame := hsig'.eq_of_free (hfree Mark.paramCount.ne_nil (by decide) (by decide) hn'.free hsig'.free)
      rw [hsame] at htypes
      have hlen := congrArg List.length htypes
      have htwo : ", ".toList.length = 2 := rfl
      simp only [List.length_append] at hlen
      omega
  · rintro ⟨hname, hmark, ⟨hsigt, hpct⟩, n, hn⟩
    obtain ⟨n', hn'⟩ : Settles Mark.paramCount.text count n := settles_of_not_mem (c := '_') (by decide) hdigits n
    exact ⟨n', d.types, hname, hmark, hsigt, n, hn, n', hn', d.types, .done hpct, rfl⟩

end

/-! ### The generator -/

/-- What the stubs of a method in the mock class put in brings no mark back, and the replacements after the name
end on it. -/
structure MockMethodSettled (className name signature : string) : Prop where
  ne_nil : name ≠ []
  methodName : ¬ Mark.methodName.text <:+: name
  onCall : ∀ n, Rewrites Mark.paramSig.text (paramSig (countMethodParams signature)) name n →
    ∃ n', Rewrites Mark.origClass.text className n n' ∧ ¬ Mark.onCallStub.text <:+: n'
  mockMethod : ∀ left, Rewrites name [] signature left →
    (¬ Mark.signature.text <:+: left ∧ ¬ Mark.mockMethodStub.text <:+: left) ∧
      ∃ n, Rewrites Mark.signature.text left name n ∧ ¬ Mark.mockMethodStub.text <:+: n

structure MockSettled (className : string) (symbols : MethodSymbols) : Prop where
  classMarks : ∀ mark ∈ [Mark.mockClassName, Mark.origClassName, Mark.origClass, Mark.onCallStub],
    ¬ mark.text <:+: className
  method : ∀ e ∈ symbols.entries, MockMethodSettled className e.1 e.2

theorem geneMockStub_halts_iff_settled {className : string} {symbols : MethodSymbols} {e : string × string}
    (he : e ∈ symbols.entries) :
    (geneMockStub className (className ++ "Mock".toList) symbols).Halts ↔ MockSettled className symbols := by
  simp only [geneMockStub_halts_iff, onCallStubOf_ends_iff, mockMethodStubOf_ends_iff]
  constructor
  · rintro ⟨⟨hmock, horig⟩, hon, hmethod⟩
    obtain ⟨⟨-, hclass, hstub⟩, -⟩ := hon e he
    refine ⟨by simp [hmock, horig, hclass, hstub], fun e he => ?_⟩
    exact ⟨(hmethod e he).1.1, (hmethod e he).1.2, (hon e he).2, (hmethod e he).2⟩
  · rintro ⟨hclass, hmethod⟩
    refine ⟨⟨hclass _ (by simp), hclass _ (by simp)⟩, fun e he => ?_, fun e he => ?_⟩
    · exact ⟨⟨(hmethod e he).methodName, hclass _ (by simp), hclass _ (by simp)⟩, (hmethod e he).onCall⟩
    · exact ⟨⟨(hmethod e he).ne_nil, (hmethod e he).methodName⟩, (hmethod e he).mockMethod⟩

section
variable (d : Declared) (className : string) (symbols : MethodSymbols)

/-- `gene_mock_stub` returns a class with a statement for the method whose second argument is the signature
without the name. -/
def Declared.KeepsTypes : Prop :=
  ∃ mockStub, (geneMockStub className (className ++ "Mock".toList) symbols).Returns mockStub ∧
    ∃ first statement, statement = mockMethodStatement (to_string (countMethodParams d.signature)) first d.types ∧
      (mockMethodStubOf d.name d.signature).Returns statement ∧ statement <:+: mockStub

variable {d className symbols}

theorem Declared.keepsTypes_iff (hm : (d.name, d.signature) ∈ symbols.entries) : d.KeepsTypes className symbols ↔
    (geneMockStub className (className ++ "Mock".toList) symbols).Halts ∧
      ∃ first, (mockMethodStubOf d.name d.signature).Returns
        (mockMethodStatement (to_string (countMethodParams d.signature)) first d.types) := by
  constructor
  · rintro ⟨mockStub, hmock, first, _, rfl, hstatement, -⟩
    exact ⟨⟨mockStub, hmock⟩, first, hstatement⟩
  · rintro ⟨⟨mockStub, hmock⟩, first, hstatement⟩
    obtain ⟨statement, hstatement', hin⟩ := statement_in_mock hmock hm
    exact ⟨mockStub, hmock, first, statement, hstatement'.unique hstatement, hstatement', hin⟩

/-- The types are kept exactly if all replacements for the mock class end, the name occurs nowhere else in the
signature, and the mark that is replaced last does not either. -/
theorem keeps_types_iff (hm : (d.name, d.signature) ∈ symbols.entries) : d.KeepsTypes className symbols ↔
    MockSettled className symbols ∧
      ∀ pat ∈ [d.name, Mark.paramCount.text], ¬ pat <:+: d.pre ∧ ¬ pat <:+: d.rest := by
  simp only [List.forall_mem_cons, List.not_mem_nil, false_imp_iff, implies_true, and_true]
  have hparen : '(' ∉ Mark.paramCount.text := by decide
  rw [d.keepsTypes_iff hm, geneMockStub_halts_iff_settled hm, d.argument_iff, d.rewrites_name_iff,
    d.infix_types_iff hparen, not_or]
  refine and_congr_right fun hsettled => ?_
  constructor
  · rintro ⟨hname, -, ⟨-, hcount⟩, -⟩
    exact ⟨hname, hcount⟩
  · rintro ⟨hname, hcount⟩
    have hmethod := hsettled.method _ hm
    obtain ⟨⟨hsig, -⟩, n, hn, -⟩ := hmethod.mockMethod _ (d.rewrites_name_iff.2 hname)
    exact ⟨hname, hmethod.methodName, ⟨hsig, hcount⟩, n, hn⟩

end

theorem void_boundary : ∀ c ∈ "void ".toList.getLast?, isWordChar c = false := by
  intro c hc
  obtain rfl : ' ' = c := Option.some.inj hc
  rfl

def sizeSetter : Declared where
  pre := "void ".toList
  name := "setSize".toList
  rest := "map<int, int> size) ".toList
  identifier := ⟨by decide, forall_mem_of_all (by decide), fun c hc => by
    obtain rfl : 's' = c := Option.some.inj hc
    rfl⟩
  boundary := void_boundary

theorem keeps_types_iff_sizeSetter :
    sizeSetter.KeepsTypes "Box".toList ((∅ : MethodSymbols).emplace sizeSetter.name sizeSetter.signature) := by
  have hentries : ((∅ : MethodSymbols).emplace sizeSetter.name sizeSetter.signature).entries =
    [(sizeSetter.name, sizeSetter.signature)] := rfl
  have hfree : ∀ pat ∈ [sizeSetter.name, Mark.paramCount.text],
    ¬ pat <:+: sizeSetter.pre ∧ ¬ pat <:+: sizeSetter.rest := by decide
  have hleft : Rewrites sizeSetter.name [] sizeSetter.signature sizeSetter.types :=
    sizeSetter.rewrites_name_iff.2 (hfree _ (by simp))
  have hplain : PlainName sizeSetter.name := by unfold PlainName; decide
  refine (keeps_types_iff (by rw [hentries]; exact List.mem_singleton_self _)).2 ⟨⟨by decide, ?_⟩, hfree⟩
  rw [hentries, List.forall_mem_singleton]
  have hsettles : NameSettles "Box".toList sizeSetter.name sizeSetter.signature := hplain.settles
  refine ⟨by decide, by decide, hsettles.onCall, fun left h => ⟨?_, hsettles.mockMethod left h⟩⟩
  rw [hleft.unique h]
  decide

def widgetGetter : Declared where
  pre := "widget ".toList
  name := "get".toList
  rest := ")".toList
  identifier := ⟨by decide, forall_mem_of_all (by decide), fun c hc => by
    obtain rfl : 'g' = c := Option.some.inj hc
    rfl⟩
  boundary c hc := by
    obtain rfl : ' ' = c := Option.some.inj hc
    rfl

theorem widgetGetter_loses_type : ¬ widgetGetter.KeepsTypes "Box".toList
    ((∅ : MethodSymbols).emplace widgetGetter.name widgetGetter.signature) := by
  intro h
  obtain ⟨-, harguments⟩ := (Declared.keepsTypes_iff (List.mem_singleton_self _)).1 h
  rw [widgetGetter.argument_iff, widgetGetter.rewrites_name_iff] at harguments
  exact harguments.1.1 (by decide)

end CWorkspace.Stub
