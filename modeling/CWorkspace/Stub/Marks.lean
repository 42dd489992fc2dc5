import CWorkspace.Stub.Gene

/-!
# The templates and their marks

In each template all between the marks is a fence for the marks replaced in it, so a replacement goes through
the texts put in so far one by one: for each of the stubs, what it asks of these texts, and the stub.
-/

namespace CWorkspace.Stub

/-! ### The marks -/

inductive Mark
  | methodName
  | paramSig
  | signature
  | paramCount
  | origClass
  | mockClassName
  | origClassName
  | onCallStub
  | mockMethodStub
  | testClassName
  deriving DecidableEq

namespace Mark

def text : Mark → string
  | methodName => "__method_name__".toList
  | paramSig => "__on_call_method_param_sig__".toList
  | signature => "__method_signature__".toList
  | paramCount => "__method_param_count__".toList
  | origClass => "$origClassName".toList
  | mockClassName => "${mockClassName}".toList
  | origClassName => "${origClassName}".toList
  | onCallStub => "${onCallStub}".toList
  | mockMethodStub => "${mockMethodStub}".toList
  | testClassName => "${testClassName}".toList

def all : List Mark :=
  [methodName, paramSig, signature, paramCount, origClass, mockClassName, origClassName, onCallStub,
    mockMethodStub, testClassName]

theorem apart {p q : Mark} (h : p ≠ q) : ¬ p.text <:+: q.text := by
  have hall : ∀ p ∈ all, ∀ q ∈ all, p ≠ q → ¬ p.text <:+: q.text := by decide +kernel
  exact hall p (by cases p <;> decide) q (by cases q <;> decide) h

theorem ne_nil (p : Mark) : p.text ≠ [] := by cases p <;> decide

theorem not_digit (p : Mark) {c : Char} (hc : c ∈ p.text) : c.isDigit = false := by
  have hall : (p.text.all fun c => !c.isDigit) = true := by cases p <;> rfl
  simpa using List.all_eq_true.1 hall c hc

theorem rewrites_iff (p q : Mark) {rep r : string} :
    Rewrites p.text rep q.text r ↔ if p = q then ¬ p.text <:+: rep ∧ r = rep else r = q.text := by
  split_ifs with h
  · subst h
    exact rewrites_self_iff p.ne_nil
  · exact rewrites_iff_of_free (apart h)

end Mark

/-! ### The templates -/

def onCallMarks : List string :=
  [Mark.methodName, Mark.paramSig, Mark.origClass, Mark.methodName].map Mark.text

def mockMethodMarks : List string := [Mark.paramCount, Mark.methodName, Mark.signature].map Mark.text

def mockStubMarks : List string :=
  [Mark.mockClassName, Mark.mockClassName, Mark.origClassName, Mark.mockClassName, Mark.onCallStub,
    Mark.mockMethodStub, Mark.origClassName].map Mark.text

def methodStubMarks : List string :=
  [Mark.signature, Mark.testClassName, Mark.methodName, Mark.mockClassName].map Mark.text

set_option maxRecDepth 8000 in
/-- What is between the marks of a template is a fence for all that are replaced in it. -/
theorem templates :
    Template onCallTemplate onCallMarks ([Mark.methodName, Mark.paramSig, Mark.origClass, Mark.onCallStub,
      Mark.mockMethodStub].map Mark.text) ∧
    Template mockMethodTemplate mockMethodMarks
      ([Mark.methodName, Mark.signature, Mark.paramCount, Mark.mockMethodStub].map Mark.text) ∧
    Template mockStubTemplate mockStubMarks
      ([Mark.mockClassName, Mark.origClassName, Mark.onCallStub, Mark.mockMethodStub].map Mark.text) ∧
    Template methodStubTemplate methodStubMarks
      ([Mark.methodName, Mark.signature, Mark.testClassName, Mark.mockClassName].map Mark.text) := by
  have h1 : onCallTemplate = _ := String.toList_ofList
  have h2 : mockMethodTemplate = _ := String.toList_ofList
  have h3 : mockStubTemplate = _ := String.toList_ofList
  have h4 : methodStubTemplate = _ := String.toList_ofList
  rw [h1, h2, h3, h4]
  decide +kernel

theorem onCallTemplate_marks : Template onCallTemplate onCallMarks ([Mark.methodName, Mark.paramSig,
    Mark.origClass, Mark.onCallStub, Mark.mockMethodStub].map Mark.text) := templates.1

theorem mockMethodTemplate_marks : Template mockMethodTemplate mockMethodMarks
    ([Mark.methodName, Mark.signature, Mark.paramCount, Mark.mockMethodStub].map Mark.text) := templates.2.1

theorem mockStubTemplate_marks : Template mockStubTemplate mockStubMarks
    ([Mark.mockClassName, Mark.origClassName, Mark.onCallStub, Mark.mockMethodStub].map Mark.text) := templates.2.2.1

theorem methodStubTemplate_marks : Template methodStubTemplate methodStubMarks
    ([Mark.methodName, Mark.signature, Mark.testClassName, Mark.mockClassName].map Mark.text) := templates.2.2.2

set_option maxRecDepth 8000 in
theorem onCallTemplate_ends : onCallTemplate.head? = some '\n' ∧ onCallTemplate.getLast? = some ';' := by
  have h : onCallTemplate = _ := String.toList_ofList
  rw [h]
  exact ⟨rfl, rfl⟩

set_option maxRecDepth 8000 in
theorem mockMethodTemplate_ends :
    mockMethodTemplate.head? = some '\n' ∧ mockMethodTemplate.getLast? = some ';' := by
  have h : mockMethodTemplate = _ := String.toList_ofList
  rw [h]
  exact ⟨rfl, rfl⟩

/-- `_,_,…,_` -/
def paramSig (paramNum : ℕ) : string := (List.replicate paramNum "_,".toList).flatten.dropLast

theorem not_infix_paramSig {pat : string} {c : Char} (hc : c ∈ pat) (h1 : c ≠ '_') (h2 : c ≠ ',')
    (paramNum : ℕ) : ¬ pat <:+: paramSig paramNum := by
  intro hin
  obtain ⟨l, hl, hmem⟩ := List.mem_flatten.1 (List.mem_of_mem_dropLast (hin.subset hc))
  rw [List.eq_of_mem_replicate hl] at hmem
  have : c = '_' ∨ c = ',' := by simpa using hmem
  tauto

/-- Before the zeros that are left all have become `_,`. -/
theorem rewrites_zeroPadded (n : ℕ) {x : string} (hx : '0' ∉ x) :
    Rewrites "0".toList "_,".toList (x ++ zeroPadded n) (x ++ (List.replicate n "_,".toList).flatten) := by
  induction n generalizing x with
  | zero =>
    have hfree : ¬ "0".toList <:+: x := fun h => hx (h.subset (by decide))
    simpa [zeroPadded] using Rewrites.done hfree
  | succ n ih =>
    have hfirst : First "0".toList x := fun h => hx (by simpa using h.subset (a := '0') (by decide))
    have h := ih (x := x ++ "_,".toList) (by simpa using hx)
    have h := Rewrites.step (y := zeroPadded n) hfirst h
    simpa [zeroPadded, List.replicate_succ] using h

theorem geneOnCallMethodParamSig_returns_iff {paramNum : ℕ} {r : string} :
    (geneOnCallMethodParamSig paramNum).Returns r ↔ r = paramSig paramNum := by
  unfold geneOnCallMethodParamSig
  by_cases h : paramNum = 0
  · subst h
    rw [if_pos rfl, Comp.returns_pure_iff]
    rfl
  · have hz := rewrites_zeroPadded paramNum (x := []) (by simp)
    rw [List.nil_append, List.nil_append] at hz
    simp only [if_neg h, Comp.returns_bind_iff, replaceIn_returns_iff, Comp.returns_pure_iff]
    constructor
    · rintro ⟨s, hs, rfl⟩
      rw [hz.unique hs, paramSig]
    · rintro rfl
      exact ⟨_, hz, rfl⟩

/-! ### The ON_CALL statement -/

section
variable {origClassName methodName methodSignature r : string}

theorem onCall_name : Rewrites Mark.methodName.text methodName onCallTemplate r ↔
    ¬ Mark.methodName.text <:+: methodName ∧
      r = fill onCallTemplate onCallMarks [methodName, Mark.paramSig.text, Mark.origClass.text, methodName] := by
  conv_lhs => rw [← onCallTemplate_marks.fill_marks]
  rw [onCallTemplate_marks.rewrites_fill (by simp) (by rfl)]
  simp only [onCallMarks, List.map_cons, List.map_nil, List.forall₂_cons_left_iff, List.forall₂_nil_left_iff,
    Mark.rewrites_iff, reduceCtorEq, if_true, if_false, existsAndEq, and_assoc, true_and, and_self_left]

theorem onCall_paramSig {sig name : string} (hsig : ¬ Mark.paramSig.text <:+: sig) :
    Rewrites Mark.paramSig.text sig
      (fill onCallTemplate onCallMarks [name, Mark.paramSig.text, Mark.origClass.text, name]) r ↔
      ∃ name', Rewrites Mark.paramSig.text sig name name' ∧
        r = fill onCallTemplate onCallMarks [name', sig, Mark.origClass.text, name'] := by
  rw [onCallTemplate_marks.rewrites_fill (by simp) (by rfl)]
  simp only [List.forall₂_cons_left_iff, List.forall₂_nil_left_iff, Mark.rewrites_iff, reduceCtorEq, if_true,
    if_false, existsAndEq, and_assoc, true_and, hsig, not_false_eq_true, exists_and_left, rewrites_twice_iff]

theorem onCall_origClass {sig name : string} (hsig : ¬ Mark.origClass.text <:+: sig) :
    Rewrites Mark.origClass.text origClassName
      (fill onCallTemplate onCallMarks [name, sig, Mark.origClass.text, name]) r ↔
      ¬ Mark.origClass.text <:+: origClassName ∧ ∃ name', Rewrites Mark.origClass.text origClassName name name' ∧
        r = fill onCallTemplate onCallMarks [name', sig, origClassName, name'] := by
  rw [onCallTemplate_marks.rewrites_fill (by simp) (by rfl)]
  simp only [List.forall₂_cons_left_iff, List.forall₂_nil_left_iff, Mark.rewrites_iff, if_true,
    rewrites_iff_of_free hsig, existsAndEq, and_assoc, true_and, exists_and_left, rewrites_twice_iff,
    and_left_comm (b := ¬ Mark.origClass.text <:+: origClassName)]

theorem onCallStubOf_returns_iff : (onCallStubOf origClassName methodName methodSignature).Returns r ↔
    ¬ Mark.methodName.text <:+: methodName ∧
    ∃ name, Rewrites Mark.paramSig.text (paramSig (countMethodParams methodSignature)) methodName name ∧
    ¬ Mark.origClass.text <:+: origClassName ∧ ∃ name', Rewrites Mark.origClass.text origClassName name name' ∧
      r = fill onCallTemplate onCallMarks
        [name', paramSig (countMethodParams methodSignature), origClassName, name'] := by
  have hparam : ¬ Mark.paramSig.text <:+: paramSig (countMethodParams methodSignature) :=
    not_infix_paramSig (c := 'o') (by decide) (by decide) (by decide) _
  have hclass : ¬ Mark.origClass.text <:+: paramSig (countMethodParams methodSignature) :=
    not_infix_paramSig (c := '$') (by decide) (by decide) (by decide) _
  unfold onCallStubOf
  simp only [Comp.returns_bind_iff, geneOnCallMethodParamSig_returns_iff, replaceIn_returns_iff]
  show (∃ a, a = _ ∧ ∃ b, Rewrites Mark.methodName.text methodName onCallTemplate b ∧
    ∃ c, Rewrites Mark.paramSig.text a b c ∧ Rewrites Mark.origClass.text origClassName c r) ↔ _
  simp only [onCall_name, existsAndEq, true_and, and_assoc, onCall_paramSig hparam, onCall_origClass hclass]

theorem not_mem_to_string {c : Char} (hc : c.isDigit = false) (n : ℕ) : c ∉ to_string n := by
  intro h
  rw [Nat.isDigit_of_mem_toDigits (by decide) (by decide) h] at hc
  cases hc

theorem fence_of_not_digit {pat : string} (hne : pat ≠ []) (h : ∀ c ∈ pat, c.isDigit = false) (n : ℕ) :
    Fence pat (to_string n) where
  ne_nil := Nat.toDigits_ne_nil
  head c hc hpat := not_mem_to_string (h c hpat) n (List.mem_of_mem_head? hc)
  last c hc hpat := not_mem_to_string (h c hpat) n (List.mem_of_mem_getLast? hc)
  free hin := by
    obtain ⟨c, hc⟩ := List.exists_mem_of_ne_nil _ hne
    exact not_mem_to_string (h c hc) n (hin.subset hc)

theorem fence_to_string (m : Mark) (n : ℕ) : Fence m.text (to_string n) :=
  fence_of_not_digit m.ne_nil (fun _ hc => m.not_digit hc) n

theorem mockMethod_name : Rewrites Mark.methodName.text methodName mockMethodTemplate r ↔
    ¬ Mark.methodName.text <:+: methodName ∧
      r = fill mockMethodTemplate mockMethodMarks [Mark.paramCount.text, methodName, Mark.signature.text] := by
  conv_lhs => rw [← mockMethodTemplate_marks.fill_marks]
  rw [mockMethodTemplate_marks.rewrites_fill (by simp) (by rfl)]
  simp only [mockMethodMarks, List.map_cons, List.map_nil, List.forall₂_cons_left_iff,
    List.forall₂_nil_left_iff, Mark.rewrites_iff, reduceCtorEq, if_true, if_false, existsAndEq, and_assoc,
    true_and]

theorem mockMethod_signature {name sig : string} : Rewrites Mark.signature.text sig
    (fill mockMethodTemplate mockMethodMarks [Mark.paramCount.text, name, Mark.signature.text]) r ↔
      ¬ Mark.signature.text <:+: sig ∧ ∃ name', Rewrites Mark.signature.text sig name name' ∧
        r = fill mockMethodTemplate mockMethodMarks [Mark.paramCount.text, name', sig] := by
  rw [mockMethodTemplate_marks.rewrites_fill (by simp) (by rfl)]
  simp only [List.forall₂_cons_left_iff, List.forall₂_nil_left_iff, Mark.rewrites_iff, reduceCtorEq, if_true,
    if_false, existsAndEq, and_assoc, true_and, exists_and_left,
    and_left_comm (b := ¬ Mark.signature.text <:+: sig)]

theorem mockMethod_paramCount {name sig count : string} (hcount : ¬ Mark.paramCount.text <:+: count) :
    Rewrites Mark.paramCount.text count
      (fill mockMethodTemplate mockMethodMarks [Mark.paramCount.text, name, sig]) r ↔
      ∃ name', Rewrites Mark.paramCount.text count name name' ∧
      ∃ sig', Rewrites Mark.paramCount.text count sig sig' ∧
        r = fill mockMethodTemplate mockMethodMarks [count, name', sig'] := by
  rw [mockMethodTemplate_marks.rewrites_fill (by simp) (by rfl)]
  simp only [List.forall₂_cons_left_iff, List.forall₂_nil_left_iff, Mark.rewrites_iff, if_true, existsAndEq,
    and_assoc, true_and, hcount, not_false_eq_true, exists_and_left]

theorem mockMethodStubOf_returns_iff : (mockMethodStubOf methodName methodSignature).Returns r ↔
    ∃ sigCopy, Rewrites methodName [] methodSignature sigCopy ∧ ¬ Mark.methodName.text <:+: methodName ∧
    ¬ Mark.signature.text <:+: sigCopy ∧ ∃ name, Rewrites Mark.signature.text sigCopy methodName name ∧
    ∃ name', Rewrites Mark.paramCount.text (to_string (countMethodParams methodSignature)) name name' ∧
    ∃ sig', Rewrites Mark.paramCount.text (to_string (countMethodParams methodSignature)) sigCopy sig' ∧
      r = fill mockMethodTemplate mockMethodMarks
        [to_string (countMethodParams methodSignature), name', sig'] := by
  have hcount := (fence_to_string .paramCount (countMethodParams methodSignature)).free
  unfold mockMethodStubOf
  simp only [Comp.returns_bind_iff, replaceIn_returns_iff]
  show (∃ a, Rewrites methodName [] methodSignature a ∧
    ∃ b, Rewrites Mark.methodName.text methodName mockMethodTemplate b ∧
      ∃ c, Rewrites Mark.signature.text a b c ∧ Rewrites Mark.paramCount.text _ c r) ↔ _
  simp only [mockMethod_name, existsAndEq, true_and, and_assoc, mockMethod_signature,
    mockMethod_paramCount hcount, exists_and_left]

theorem methodStub_name : Rewrites Mark.methodName.text methodName methodStubTemplate r ↔
    ¬ Mark.methodName.text <:+: methodName ∧ r = fill methodStubTemplate methodStubMarks
      [Mark.signature.text, Mark.testClassName.text, methodName, Mark.mockClassName.text] := by
  conv_lhs => rw [← methodStubTemplate_marks.fill_marks]
  rw [methodStubTemplate_marks.rewrites_fill (by simp) (by rfl)]
  simp only [methodStubMarks, List.map_cons, List.map_nil, List.forall₂_cons_left_iff,
    List.forall₂_nil_left_iff, Mark.rewrites_iff, reduceCtorEq, if_true, if_false, existsAndEq, and_assoc,
    true_and]

theorem methodStub_signature {name : string} : Rewrites Mark.signature.text methodSignature
    (fill methodStubTemplate methodStubMarks
      [Mark.signature.text, Mark.testClassName.text, name, Mark.mockClassName.text]) r ↔
      ¬ Mark.signature.text <:+: methodSignature ∧
      ∃ name', Rewrites Mark.signature.text methodSignature name name' ∧
        r = fill methodStubTemplate methodStubMarks
          [methodSignature, Mark.testClassName.text, name', Mark.mockClassName.text] := by
  rw [methodStubTemplate_marks.rewrites_fill (by simp) (by rfl)]
  simp only [List.forall₂_cons_left_iff, List.forall₂_nil_left_iff, Mark.rewrites_iff, reduceCtorEq, if_true,
    if_false, existsAndEq, and_assoc, true_and, exists_and_left]

theorem methodStub_testClassName {sig name testClassName : string} :
    Rewrites Mark.testClassName.text testClassName
      (fill methodStubTemplate methodStubMarks [sig, Mark.testClassName.text, name, Mark.mockClassName.text]) r ↔
      ¬ Mark.testClassName.text <:+: testClassName ∧
      ∃ sig', Rewrites Mark.testClassName.text testClassName sig sig' ∧
      ∃ name', Rewrites Mark.testClassName.text testClassName name name' ∧
        r = fill methodStubTemplate methodStubMarks [sig', testClassName, name', Mark.mockClassName.text] := by
  rw [methodStubTemplate_marks.rewrites_fill (by simp) (by rfl)]
  simp only [List.forall₂_cons_left_iff, List.forall₂_nil_left_iff, Mark.rewrites_iff, reduceCtorEq, if_true,
    if_false, existsAndEq, and_assoc, true_and, exists_and_left,
    and_left_comm (b := ¬ Mark.testClassName.text <:+: testClassName)]

theorem methodStub_mockClassName {sig test name mockClassName : string} :
    Rewrites Mark.mockClassName.text mockClassName
      (fill methodStubTemplate methodStubMarks [sig, test, name, Mark.mockClassName.text]) r ↔
      ¬ Mark.mockClassName.text <:+: mockClassName ∧
      ∃ sig', Rewrites Mark.mockClassName.text mockClassName sig sig' ∧
      ∃ test', Rewrites Mark.mockClassName.text mockClassName test test' ∧
      ∃ name', Rewrites Mark.mockClassName.text mockClassName name name' ∧
        r = fill methodStubTemplate methodStubMarks [sig', test', name', mockClassName] := by
  rw [methodStubTemplate_marks.rewrites_fill (by simp) (by rfl)]
  simp only [List.forall₂_cons_left_iff, List.forall₂_nil_left_iff, Mark.rewrites_iff, if_true, existsAndEq,
    and_assoc, true_and, exists_and_left, and_left_comm (b := ¬ Mark.mockClassName.text <:+: mockClassName)]

theorem methodStubOf_returns_iff {testClassName mockClassName : string} :
    (methodStubOf testClassName mockClassName methodName methodSignature).Returns r ↔
    ¬ Mark.methodName.text <:+: methodName ∧ ¬ Mark.signature.text <:+: methodSignature ∧
    ∃ name, Rewrites Mark.signature.text methodSignature methodName name ∧
    ¬ Mark.testClassName.text <:+: testClassName ∧
    ∃ sig, Rewrites Mark.testClassName.text testClassName methodSignature sig ∧
    ∃ name', Rewrites Mark.testClassName.text testClassName name name' ∧
    ¬ Mark.mockClassName.text <:+: mockClassName ∧
    ∃ sig', Rewrites Mark.mockClassName.text mockClassName sig sig' ∧
    ∃ test, Rewrites Mark.mockClassName.text mockClassName testClassName test ∧
    ∃ name'', Rewrites Mark.mockClassName.text mockClassName name' name'' ∧
      r = fill methodStubTemplate methodStubMarks [sig', test, name'', mockClassName] := by
  unfold methodStubOf
  simp only [Comp.returns_bind_iff, replaceIn_returns_iff]
  show (∃ a, Rewrites Mark.methodName.text methodName methodStubTemplate a ∧
    ∃ b, Rewrites Mark.signature.text methodSignature a b ∧
    ∃ c, Rewrites Mark.testClassName.text testClassName b c ∧
      Rewrites Mark.mockClassName.text mockClassName c r) ↔ _
  simp only [methodStub_name, methodStub_signature, methodStub_testClassName, methodStub_mockClassName,
    existsAndEq, true_and, and_assoc, exists_and_left]

/-! ### The mock class -/

theorem mockStub_mockClassName {mockClassName : string} :
    Rewrites Mark.mockClassName.text mockClassName mockStubTemplate r ↔
    ¬ Mark.mockClassName.text <:+: mockClassName ∧ r = fill mockStubTemplate mockStubMarks
      [mockClassName, mockClassName, Mark.origClassName.text, mockClassName, Mark.onCallStub.text,
        Mark.mockMethodStub.text, Mark.origClassName.text] := by
  conv_lhs => rw [← mockStubTemplate_marks.fill_marks]
  rw [mockStubTemplate_marks.rewrites_fill (by simp) (by rfl)]
  simp only [mockStubMarks, List.map_cons, List.map_nil, List.forall₂_cons_left_iff,
    List.forall₂_nil_left_iff, Mark.rewrites_iff, reduceCtorEq, if_true, if_false, existsAndEq, and_assoc,
    true_and, and_self_left]

theorem mockStub_origClassName {mock : string}
    (hmock : Mark.origClassName.text <:+: mock → Mark.origClassName.text <:+: origClassName) :
    Rewrites Mark.origClassName.text origClassName (fill mockStubTemplate mockStubMarks
      [mock, mock, Mark.origClassName.text, mock, Mark.onCallStub.text, Mark.mockMethodStub.text,
        Mark.origClassName.text]) r ↔
      ¬ Mark.origClassName.text <:+: origClassName ∧ r = fill mockStubTemplate mockStubMarks
        [mock, mock, origClassName, mock, Mark.onCallStub.text, Mark.mockMethodStub.text, origClassName] := by
  by_cases hclass : Mark.origClassName.text <:+: origClassName
  · simp only [hclass, not_true_eq_false, false_and, iff_false]
    intro h
    refine h.not_infix hclass ?_
    rw [mockStubTemplate_marks.infix_fill (by simp) (by rfl)]
    exact ⟨Mark.origClassName.text, by simp, List.infix_rfl⟩
  · rw [mockStubTemplate_marks.rewrites_fill (by simp) (by rfl)]
    simp only [List.forall₂_cons_left_iff, List.forall₂_nil_left_iff, Mark.rewrites_iff, reduceCtorEq,
      if_true, if_false, rewrites_iff_of_free (mt hmock hclass), existsAndEq, and_assoc, true_and,
      and_self_left]

theorem mockStub_stubs_end_iff {mock onCallStub mockMethodStub : string}
    (honCall : ¬ Mark.onCallStub.text <:+: onCallStub → ∀ s, Settles Mark.onCallStub.text onCallStub s)
    (hmethod : ¬ Mark.mockMethodStub.text <:+: mockMethodStub →
      ∀ s, Settles Mark.mockMethodStub.text mockMethodStub s) :
    (∃ s, Rewrites Mark.onCallStub.text onCallStub (fill mockStubTemplate mockStubMarks
      [mock, mock, origClassName, mock, Mark.onCallStub.text, Mark.mockMethodStub.text, origClassName]) s ∧
      Settles Mark.mockMethodStub.text mockMethodStub s) ↔
      ¬ Mark.onCallStub.text <:+: onCallStub ∧ ¬ Mark.mockMethodStub.text <:+: mockMethodStub := by
  constructor
  · rintro ⟨s, hs, r, hr⟩
    have h1 : ¬ Mark.onCallStub.text <:+: onCallStub := by
      intro hin
      refine hs.not_infix hin ?_
      rw [mockStubTemplate_marks.infix_fill (by simp) (by rfl)]
      exact ⟨Mark.onCallStub.text, by simp, List.infix_rfl⟩
    rw [mockStubTemplate_marks.rewrites_fill (by simp) (by rfl)] at hs
    obtain ⟨hs', hall, hfill⟩ := hs
    rw [hfill] at hr
    have hlen := hall.length_eq.symm
    -- the last mark is still there
    have hmark : Mark.mockMethodStub.text ∈ hs' := by
      rcases hall with _ | ⟨-, _ | ⟨-, _ | ⟨-, _ | ⟨-, _ | ⟨-, _ | ⟨h, -⟩⟩⟩⟩⟩⟩
      rw [h.eq_of_free (Mark.apart (by decide))]
      simp
    refine ⟨h1, fun hin => hr.not_infix hin ?_⟩
    rw [mockStubTemplate_marks.infix_fill (by simp) hlen]
    exact ⟨_, hmark, List.infix_rfl⟩
  · rintro ⟨h1, h2⟩
    obtain ⟨s, hs⟩ := honCall h1 (fill mockStubTemplate mockStubMarks
      [mock, mock, origClassName, mock, Mark.onCallStub.text, Mark.mockMethodStub.text, origClassName])
    exact ⟨s, hs, hmethod h2 s⟩

end

def mockClass (mock orig onCallStub mockMethodStub : string) : string :=
  fill mockStubTemplate mockStubMarks [mock, mock, orig, mock, onCallStub, mockMethodStub, orig]

theorem rewrites_mockClass {mark : Mark} {rep mock orig onCallStub mockMethodStub r : string}
    (hmark : mark ∈ [Mark.mockClassName, Mark.origClassName, Mark.onCallStub, Mark.mockMethodStub])
    (h : Rewrites mark.text rep (mockClass mock orig onCallStub mockMethodStub) r) :
    ∃ mock' orig' onCallStub' mockMethodStub', r = mockClass mock' orig' onCallStub' mockMethodStub' ∧
      Rewrites mark.text rep onCallStub onCallStub' ∧ Rewrites mark.text rep mockMethodStub mockMethodStub' := by
  rw [mockClass, mockStubTemplate_marks.rewrites_fill (List.mem_map_of_mem hmark) (by rfl)] at h
  obtain ⟨_, hall, hr⟩ := h
  rcases hall with _ | ⟨h1, _ | ⟨h2, _ | ⟨h3, _ | ⟨h4, _ | ⟨h5, _ | ⟨h6, _ | ⟨h7, _ | _⟩⟩⟩⟩⟩⟩⟩
  -- what stood for one class name everywhere still does
  obtain rfl := h2.unique h1
  obtain rfl := h4.unique h2
  obtain rfl := h7.unique h3
  exact ⟨_, _, _, _, hr, h5, h6⟩

theorem mockStubTemplate_eq : mockStubTemplate = mockClass Mark.mockClassName.text Mark.origClassName.text
    Mark.onCallStub.text Mark.mockMethodStub.text := mockStubTemplate_marks.fill_marks.symm

end CWorkspace.Stub
