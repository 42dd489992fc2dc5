import CWorkspace.Lib.Seams
import CWorkspace.Stub.Marks
import CWorkspace.Stub.Symbols

/-!
# When the generator ends

`replaceAll` looks at what it has put in again, so it never ends when that contains the mark, and never with an
empty `from`: the name of a line the signature pattern does not match. `Settled` says that neither happens.
A name is put in first and goes through the replacements after it; a name without their marks does not change
(`PlainName.settles`). With that the generator ends exactly if the input is settled (`geneStubs_halts_iff`).
-/

namespace CWorkspace.Stub

/-! ### The conditions -/

/-- No mark comes back with what a method puts in for it. -/
structure MethodSettled (className name signature : string) : Prop where
  origClass : ¬ Mark.origClass.text <:+: className
  onCallStub : ¬ Mark.onCallStub.text <:+: className
  testClass : ¬ Mark.testClassName.text <:+: className
  methodName : ¬ Mark.methodName.text <:+: name
  methodSignature : ¬ Mark.signature.text <:+: signature
  -- what is left of the signature without the name
  left : ∀ left, Rewrites name [] signature left →
    ¬ Mark.signature.text <:+: left ∧ ¬ Mark.mockMethodStub.text <:+: left

structure Settled (className : string) (lines : List string) : Prop where
  found : ∀ line ∈ symbolLines lines, (signatureRegex.search line).isSome
  mockClass : ¬ Mark.mockClassName.text <:+: className
  origClass : ¬ Mark.origClassName.text <:+: className
  method : ∀ name signature, Method lines name signature → MethodSettled className name signature

/-- The replacements that come after a name end on it, and leave no mark of the mock class in it. -/
structure NameSettles (className name signature : string) : Prop where
  onCall : ∀ n, Rewrites Mark.paramSig.text (paramSig (countMethodParams signature)) name n →
    ∃ n', Rewrites Mark.origClass.text className n n' ∧ ¬ Mark.onCallStub.text <:+: n'
  mockMethod : ∀ left, Rewrites name [] signature left →
    ∃ n, Rewrites Mark.signature.text left name n ∧ ¬ Mark.mockMethodStub.text <:+: n
  test : Settles Mark.signature.text signature name

/-- A name without the marks of these replacements. -/
def PlainName (name : string) : Prop :=
  ∀ mark ∈ [Mark.paramSig, Mark.origClass, Mark.signature, Mark.onCallStub, Mark.mockMethodStub],
    ¬ mark.text <:+: name

variable {className name signature : string} {lines : List string}

theorem PlainName.settles (h : PlainName name) : NameSettles className name signature where
  onCall n hn := by
    obtain rfl := hn.eq_of_free (h _ (by simp))
    exact ⟨n, .done (h _ (by simp)), h _ (by simp)⟩
  mockMethod left _ := ⟨name, .done (h _ (by simp)), h _ (by simp)⟩
  test := ⟨name, .done (h _ (by simp))⟩

section
variable {mark w : string} {d : Char} (hd : d ∉ mark)
include hd

theorem infix_className (hlen : w.length < mark.length) :
    mark <:+: className ++ d :: w ↔ mark <:+: className := by
  rw [infix_append_cons hd]
  exact or_iff_left fun h => absurd h.length_le (by omega)

theorem settles_className {c : Char} {f : string} (hmark : mark = c :: f) (hw : c ∉ w)
    (h : ¬ mark <:+: className) (s : string) : Settles mark (className ++ d :: w) s := by
  subst hmark
  exact settles_of_separator hd h hw s

end

theorem infix_mockClassName :
    Mark.mockClassName.text <:+: className ++ "Mock".toList ↔ Mark.mockClassName.text <:+: className :=
  infix_className (d := 'M') (w := "ock".toList) (by decide) (by decide)

theorem infix_testClassName :
    Mark.testClassName.text <:+: className ++ "Test".toList ↔ Mark.testClassName.text <:+: className :=
  infix_className (d := 'T') (w := "est".toList) (by decide) (by decide)

theorem settles_mockClassName (h : ¬ Mark.mockClassName.text <:+: className) (s : string) :
    Settles Mark.mockClassName.text (className ++ "Mock".toList) s :=
  settles_className (d := 'M') (w := "ock".toList) (by decide) (f := "{mockClassName}".toList) rfl
    (by decide) h s

theorem settles_testClassName (h : ¬ Mark.testClassName.text <:+: className) (s : string) :
    Settles Mark.testClassName.text (className ++ "Test".toList) s :=
  settles_className (d := 'T') (w := "est".toList) (by decide) (f := "{testClassName}".toList) rfl
    (by decide) h s

/-! ### The stubs of a method -/

theorem onCallStubOf_ends_iff :
    (∃ r, (onCallStubOf className name signature).Returns r ∧ ¬ Mark.onCallStub.text <:+: r) ↔
    (¬ Mark.methodName.text <:+: name ∧ ¬ Mark.origClass.text <:+: className ∧
      ¬ Mark.onCallStub.text <:+: className) ∧
    ∀ n, Rewrites Mark.paramSig.text (paramSig (countMethodParams signature)) name n →
      ∃ n', Rewrites Mark.origClass.text className n n' ∧ ¬ Mark.onCallStub.text <:+: n' := by
  have hsig : ¬ Mark.onCallStub.text <:+: paramSig (countMethodParams signature) :=
    not_infix_paramSig (c := '$') (by decide) (by decide) (by decide) _
  have hfill : ∀ n, Mark.onCallStub.text <:+: fill onCallTemplate onCallMarks
      [n, paramSig (countMethodParams signature), className, n] ↔
        Mark.onCallStub.text <:+: n ∨ Mark.onCallStub.text <:+: className := by
    intro n
    rw [onCallTemplate_marks.infix_fill (by simp) (by rfl)]
    simp only [List.exists_mem_cons_iff, List.not_mem_nil, false_and, exists_false, hsig, false_or, or_false]
    exact ⟨fun h => h.elim .inl fun h => h.symm, fun h => h.elim .inl fun h => .inr (.inl h)⟩
  constructor
  · rintro ⟨r, hr, hfree⟩
    obtain ⟨hname, n, hn, hclass, n', hn', hr⟩ := onCallStubOf_returns_iff.1 hr
    rw [hr, hfill, not_or] at hfree
    refine ⟨⟨hname, hclass, hfree.2⟩, fun m hm => ?_⟩
    rw [hn.unique hm]
    exact ⟨n', hn', hfree.1⟩
  · rintro ⟨⟨hname, hclass, hon⟩, h⟩
    -- the parameters lack the letters of their mark
    have hmem : 'o' ∉ paramSig (countMethodParams signature) := by
      rw [← List.singleton_infix_iff]
      exact not_infix_paramSig (c := 'o') (by decide) (by decide) (by decide) _
    obtain ⟨n, hn⟩ : Settles Mark.paramSig.text (paramSig (countMethodParams signature)) name :=
      settles_of_not_mem (c := 'o') (by decide) hmem name
    obtain ⟨n', hn', hfree⟩ := h n hn
    refine ⟨_, onCallStubOf_returns_iff.2 ⟨hname, n, hn, hclass, n', hn', rfl⟩, ?_⟩
    rw [hfill]
    exact not_or.2 ⟨hfree, hon⟩

theorem mockMethodStubOf_ends_iff :
    (∃ r, (mockMethodStubOf name signature).Returns r ∧ ¬ Mark.mockMethodStub.text <:+: r) ↔
    (name ≠ [] ∧ ¬ Mark.methodName.text <:+: name) ∧ ∀ left, Rewrites name [] signature left →
      (¬ Mark.signature.text <:+: left ∧ ¬ Mark.mockMethodStub.text <:+: left) ∧
        ∃ n, Rewrites Mark.signature.text left name n ∧ ¬ Mark.mockMethodStub.text <:+: n := by
  have hnot := not_mem_to_string (c := '_') (by decide) (countMethodParams signature)
  -- both the mark of the count and the count are fences for the mark of the stub
  have hmark : Fence Mark.mockMethodStub.text Mark.paramCount.text := by decide
  have hfence := fence_to_string .mockMethodStub (countMethodParams signature)
  generalize hcount : to_string (countMethodParams signature) = count at hnot hfence
  have hfill : ∀ {n n' left left'}, Rewrites Mark.paramCount.text count n n' →
      Rewrites Mark.paramCount.text count left left' →
      (Mark.mockMethodStub.text <:+: fill mockMethodTemplate mockMethodMarks [count, n', left'] ↔
        Mark.mockMethodStub.text <:+: n ∨ Mark.mockMethodStub.text <:+: left) := by
    intro n n' left left' hn hleft
    rw [mockMethodTemplate_marks.infix_fill (by simp) (by rfl)]
    simp only [List.exists_mem_cons_iff, List.not_mem_nil, false_and, exists_false, hfence.free, false_or,
      or_false, hn.infix_iff hmark hfence, hleft.infix_iff hmark hfence]
  constructor
  · rintro ⟨r, hr, hfree⟩
    obtain ⟨left, hleft, hname, hsig, n, hn, n', hn', left', hleft', hr⟩ := mockMethodStubOf_returns_iff.1 hr
    rw [hcount] at hn' hleft' hr
    rw [hr, hfill hn' hleft', not_or] at hfree
    refine ⟨⟨hleft.ne_nil, hname⟩, fun l hl => ?_⟩
    rw [hleft.unique hl]
    exact ⟨⟨hsig, hfree.2⟩, n, hn, hfree.1⟩
  · rintro ⟨⟨hne, hname⟩, h⟩
    obtain ⟨left, hleft⟩ : Settles name [] signature :=
      settles_of_length (by simpa using List.length_pos_of_ne_nil hne) signature
    obtain ⟨⟨hsig, hfree⟩, n, hn, hfree'⟩ := h left hleft
    have hsettles : ∀ s, Settles Mark.paramCount.text count s := settles_of_not_mem (c := '_') (by decide) hnot
    obtain ⟨n', hn'⟩ := hsettles n
    obtain ⟨left', hleft'⟩ := hsettles left
    refine ⟨_, mockMethodStubOf_returns_iff.2
      ⟨left, hleft, hname, hsig, n, hn, n', hcount ▸ hn', left', hcount ▸ hleft', rfl⟩, ?_⟩
    rw [hcount, hfill hn' hleft']
    exact not_or.2 ⟨hfree', hfree⟩

theorem methodStubOf_halts_iff :
    (methodStubOf (className ++ "Test".toList) (className ++ "Mock".toList) name signature).Halts ↔
      (¬ Mark.methodName.text <:+: name ∧ ¬ Mark.signature.text <:+: signature) ∧
        Settles Mark.signature.text signature name ∧
        ¬ Mark.testClassName.text <:+: className ∧ ¬ Mark.mockClassName.text <:+: className := by
  constructor
  · rintro ⟨r, hr⟩
    obtain ⟨h1, h2, n, hn, h3, _, _, _, _, h4, -⟩ := methodStubOf_returns_iff.1 hr
    exact ⟨⟨h1, h2⟩, ⟨n, hn⟩, fun h => h3 (infix_testClassName.2 h), fun h => h4 (infix_mockClassName.2 h)⟩
  · rintro ⟨⟨h1, h2⟩, ⟨n, hn⟩, h3, h4⟩
    have h5 := settles_testClassName h3
    have h6 := settles_mockClassName h4
    obtain ⟨sig, hsig⟩ := h5 signature
    obtain ⟨n', hn'⟩ := h5 n
    obtain ⟨sig', hsig'⟩ := h6 sig
    obtain ⟨test, htest'⟩ := h6 (className ++ "Test".toList)
    obtain ⟨n'', hn''⟩ := h6 n'
    exact ⟨_, methodStubOf_returns_iff.2 ⟨h1, h2, n, hn, fun h => h3 (infix_testClassName.1 h), sig, hsig,
      n', hn', fun h => h4 (infix_mockClassName.1 h), sig', hsig', test, htest', n'', hn'', rfl⟩⟩

theorem onCallStubOf_ends {r : string} (h : (onCallStubOf className name signature).Returns r) :
    r.head? = some '\n' ∧ r.getLast? = some ';' := by
  obtain ⟨-, _, -, -, _, -, hr⟩ := onCallStubOf_returns_iff.1 h
  have hmark : Mark.onCallStub.text ∈ [Mark.methodName, Mark.paramSig, Mark.origClass, Mark.onCallStub,
    Mark.mockMethodStub].map Mark.text := by simp
  rw [hr, onCallTemplate_marks.head?_fill hmark, onCallTemplate_marks.getLast?_fill hmark (by rfl)]
  exact onCallTemplate_ends

theorem mockMethodStubOf_ends {r : string} (h : (mockMethodStubOf name signature).Returns r) :
    r.head? = some '\n' ∧ r.getLast? = some ';' := by
  obtain ⟨_, -, -, -, _, -, _, -, _, -, hr⟩ := mockMethodStubOf_returns_iff.1 h
  have hmark : Mark.signature.text ∈
    [Mark.methodName, Mark.signature, Mark.paramCount, Mark.mockMethodStub].map Mark.text := by simp
  rw [hr, mockMethodTemplate_marks.head?_fill hmark, mockMethodTemplate_marks.getLast?_fill hmark (by rfl)]
  exact mockMethodTemplate_ends

def eachMethod (f : string → string → Comp string) (symbols : MethodSymbols) : Comp string :=
  reduceMethodSymbols symbols fun accu methodName methodSignature => do
    return accu ++ (← f methodName methodSignature)

theorem eachMethod_returns_iff {f : string → string → Comp string} {symbols : MethodSymbols} {r : string} :
    (eachMethod f symbols).Returns r ↔
    ∃ rs, List.Forall₂ (fun e => (f e.1 e.2).Returns) symbols.entries rs ∧ r = rs.flatten := by
  have h := Comp.returns_foldlM_append_iff (fun e : string × string => f e.1 e.2) symbols.entries [] r
  simp only [List.nil_append] at h
  exact h

theorem geneGtestMethodStub_halts_iff {testClassName mockClassName : string} {symbols : MethodSymbols} :
    (geneGtestMethodStub testClassName mockClassName symbols).Halts ↔
      ∀ e ∈ symbols.entries, (methodStubOf testClassName mockClassName e.1 e.2).Halts := by
  have hgene : geneGtestMethodStub testClassName mockClassName symbols = do
    return unitTestHeader ++ (← eachMethod (methodStubOf testClassName mockClassName) symbols) := rfl
  rw [hgene, Comp.Halts]
  simp only [Comp.returns_bind_iff, eachMethod_returns_iff, Comp.returns_pure_iff]
  have h := Comp.exists_forall₂_iff (R := fun e => (methodStubOf testClassName mockClassName e.1 e.2).Returns)
    (Q := fun _ => True) symbols.entries
  simp only [implies_true, and_true] at h
  refine Iff.trans ?_ h
  constructor
  · rintro ⟨_, _, ⟨rs, hrs, -⟩, -⟩
    exact ⟨rs, hrs⟩
  · rintro ⟨rs, hrs⟩
    exact ⟨_, _, ⟨rs, hrs, rfl⟩, rfl⟩

/-! Texts between a newline and a semicolon do not meet. -/

section
variable {f : string → string → Comp string}
  (hf : ∀ n s r, (f n s).Returns r → r.head? = some '\n' ∧ r.getLast? = some ';')
  {mark : string} (hne : mark ≠ []) (hnl : '\n' ∉ mark) {symbols : MethodSymbols}
include hf hne hnl

theorem statements_iff : (∃ r, (eachMethod f symbols).Returns r ∧ ¬ mark <:+: r) ↔
    ∀ e ∈ symbols.entries, ∃ r, (f e.1 e.2).Returns r ∧ ¬ mark <:+: r := by
  rw [← Comp.exists_forall₂_iff]
  simp only [eachMethod_returns_iff]
  have hfree : ∀ rs, List.Forall₂ (fun e => (f e.1 e.2).Returns) symbols.entries rs →
      (¬ mark <:+: rs.flatten ↔ ∀ r ∈ rs, ¬ mark <:+: r) := by
    intro rs hrs
    rw [infix_flatten hne hnl (Comp.forall_mem_of_forall₂ (fun e r h => (hf e.1 e.2 r h).1) hrs)]
    push Not
    rfl
  constructor
  · rintro ⟨_, ⟨rs, hrs, rfl⟩, h⟩
    exact ⟨rs, hrs, (hfree rs hrs).1 h⟩
  · rintro ⟨rs, hrs, h⟩
    exact ⟨_, ⟨rs, hrs, rfl⟩, (hfree rs hrs).2 h⟩

theorem statements_settle (hsemi : ';' ∉ mark) {stub : string} (h : (eachMethod f symbols).Returns stub)
    (hfree : ¬ mark <:+: stub) (s : string) : Settles mark stub s := by
  obtain ⟨rs, hrs, rfl⟩ := eachMethod_returns_iff.1 h
  exact settles_flatten hne hnl hsemi (Comp.forall_mem_of_forall₂ (fun e r h => (hf e.1 e.2 r h).1) hrs)
    (Comp.forall_mem_of_forall₂ (fun e r h => (hf e.1 e.2 r h).2) hrs)
    (fun r hr hin => hfree (hin.trans (List.infix_of_mem_flatten hr))) s

end

theorem geneMockStub_eq (orig mock : string) (symbols : MethodSymbols) : geneMockStub orig mock symbols = (do
    let onCallStub ← eachMethod (onCallStubOf orig) symbols
    let mockMethodStub ← eachMethod mockMethodStubOf symbols
    let mockStub ← replaceIn mockStubTemplate Mark.mockClassName.text mock
    let mockStub ← replaceIn mockStub Mark.origClassName.text orig
    let mockStub ← replaceIn mockStub Mark.onCallStub.text onCallStub
    replaceIn mockStub Mark.mockMethodStub.text mockMethodStub) := rfl

/-- All stubs are in the mock class, those of ON_CALL gone through the last replacement. -/
theorem geneMockStub_returns {orig mock text : string} {symbols : MethodSymbols}
    (h : (geneMockStub orig mock symbols).Returns text) :
    ∃ onCallStub onCallStub' mockMethodStub mock' orig',
      (eachMethod (onCallStubOf orig) symbols).Returns onCallStub ∧
      (eachMethod mockMethodStubOf symbols).Returns mockMethodStub ∧
      Rewrites Mark.mockMethodStub.text mockMethodStub onCallStub onCallStub' ∧
      text = mockClass mock' orig' onCallStub' mockMethodStub := by
  rw [geneMockStub_eq] at h
  simp only [Comp.returns_bind_iff, replaceIn_returns_iff] at h
  obtain ⟨onCallStub, honCall, mockMethodStub, hmock, s, hs, t, ht, u, hu, hr⟩ := h
  rw [mockStubTemplate_eq] at hs
  obtain ⟨m, o, c, d, hs, hc, hd⟩ := rewrites_mockClass (by simp) hs
  rw [hs, hc.eq_of_free (Mark.apart (by decide)), hd.eq_of_free (Mark.apart (by decide))] at ht
  obtain ⟨m, o, c, d, ht, hc, hd⟩ := rewrites_mockClass (by simp) ht
  rw [ht, hc.eq_of_free (Mark.apart (by decide)), hd.eq_of_free (Mark.apart (by decide))] at hu
  obtain ⟨m, o, c, d, hu, hc, hd⟩ := rewrites_mockClass (by simp) hu
  rw [hu, ((rewrites_self_iff Mark.onCallStub.ne_nil).1 hc).2, hd.eq_of_free (Mark.apart (by decide))] at hr
  obtain ⟨m, o, c, d, hr, hc, hd⟩ := rewrites_mockClass (by simp) hr
  rw [((rewrites_self_iff Mark.mockMethodStub.ne_nil).1 hd).2] at hr
  exact ⟨_, c, _, m, o, honCall, hmock, hc, hr⟩

/-- The four replacements, once the stubs are there. -/
theorem mockStub_ends_iff {onCallStub mockMethodStub : string}
    (honCall : ¬ Mark.onCallStub.text <:+: onCallStub → ∀ s, Settles Mark.onCallStub.text onCallStub s)
    (hmethod : ¬ Mark.mockMethodStub.text <:+: mockMethodStub →
      ∀ s, Settles Mark.mockMethodStub.text mockMethodStub s) :
    (∃ s, Rewrites Mark.mockClassName.text (className ++ "Mock".toList) mockStubTemplate s ∧
      ∃ t, Rewrites Mark.origClassName.text className s t ∧ ∃ u, Rewrites Mark.onCallStub.text onCallStub t u ∧
        Settles Mark.mockMethodStub.text mockMethodStub u) ↔
      (¬ Mark.mockClassName.text <:+: className ∧ ¬ Mark.origClassName.text <:+: className) ∧
        ¬ Mark.onCallStub.text <:+: onCallStub ∧ ¬ Mark.mockMethodStub.text <:+: mockMethodStub := by
  have horig : Mark.origClassName.text <:+: className ++ "Mock".toList →
      Mark.origClassName.text <:+: className :=
    (infix_className (d := 'M') (w := "ock".toList) (by decide) (by decide)).1
  simp only [mockStub_mockClassName, infix_mockClassName, existsAndEq, true_and, and_assoc,
    mockStub_origClassName horig, exists_and_left, mockStub_stubs_end_iff honCall hmethod]

theorem geneMockStub_halts_iff {symbols : MethodSymbols} :
    (geneMockStub className (className ++ "Mock".toList) symbols).Halts ↔
      (¬ Mark.mockClassName.text <:+: className ∧ ¬ Mark.origClassName.text <:+: className) ∧
      (∀ e ∈ symbols.entries, ∃ r, (onCallStubOf className e.1 e.2).Returns r ∧ ¬ Mark.onCallStub.text <:+: r) ∧
      ∀ e ∈ symbols.entries, ∃ r, (mockMethodStubOf e.1 e.2).Returns r ∧ ¬ Mark.mockMethodStub.text <:+: r := by
  have honCall : ∀ n s r, (onCallStubOf className n s).Returns r → _ := fun _ _ _ => onCallStubOf_ends
  have hmethod : ∀ n s r, (mockMethodStubOf n s).Returns r → _ := fun _ _ _ => mockMethodStubOf_ends
  rw [← statements_iff honCall (by decide) (by decide), ← statements_iff hmethod (by decide) (by decide)]
  have hends {onCallStub mockMethodStub : string}
      (h : (eachMethod (onCallStubOf className) symbols).Returns onCallStub)
      (h' : (eachMethod mockMethodStubOf symbols).Returns mockMethodStub) :=
    @mockStub_ends_iff className _ _ (statements_settle honCall (by decide) (by decide) (by decide) h)
      (statements_settle hmethod (by decide) (by decide) (by decide) h')
  rw [geneMockStub_eq, Comp.Halts]
  simp only [Comp.returns_bind_iff, replaceIn_returns_iff]
  constructor
  · rintro ⟨r, a, ha, b, hb, s, hs, t, ht, u, hu, hr⟩
    obtain ⟨hclass, h1, h2⟩ := (hends ha hb).1 ⟨s, hs, t, ht, u, hu, r, hr⟩
    exact ⟨hclass, ⟨a, ha, h1⟩, ⟨b, hb, h2⟩⟩
  · rintro ⟨hclass, ⟨a, ha, h1⟩, ⟨b, hb, h2⟩⟩
    obtain ⟨s, hs, t, ht, u, hu, r, hr⟩ := (hends ha hb).2 ⟨hclass, h1, h2⟩
    exact ⟨r, a, ha, b, hb, s, hs, t, ht, u, hu, hr⟩

/-! ### The generator -/

theorem method_ends_iff :
    (∃ r, (onCallStubOf className name signature).Returns r ∧ ¬ Mark.onCallStub.text <:+: r) ∧
    (∃ r, (mockMethodStubOf name signature).Returns r ∧ ¬ Mark.mockMethodStub.text <:+: r) ∧
    (methodStubOf (className ++ "Test".toList) (className ++ "Mock".toList) name signature).Halts ↔
      name ≠ [] ∧ ¬ Mark.mockClassName.text <:+: className ∧ MethodSettled className name signature ∧
        NameSettles className name signature := by
  rw [onCallStubOf_ends_iff, mockMethodStubOf_ends_iff, methodStubOf_halts_iff]
  constructor
  · rintro ⟨⟨⟨h1, h2, h3⟩, hon⟩, ⟨⟨h4, -⟩, hmock⟩, ⟨-, h5⟩, htest, h6, h7⟩
    have hleft := fun l hl => (hmock l hl).1
    have hname := fun l hl => (hmock l hl).2
    exact ⟨h4, h7, ⟨h2, h3, h6, h1, h5, hleft⟩, hon, hname, htest⟩
  · rintro ⟨hne, hmock, hs, hn⟩
    exact ⟨⟨⟨hs.methodName, hs.origClass, hs.onCallStub⟩, hn.onCall⟩,
      ⟨⟨hne, hs.methodName⟩, fun l hl => ⟨hs.left l hl, hn.mockMethod l hl⟩⟩,
      ⟨hs.methodName, hs.methodSignature⟩, hn.test, hs.testClass, hmock⟩

theorem geneStubs_halts_iff_methods : (geneStubs className lines).Halts ↔
    (¬ Mark.mockClassName.text <:+: className ∧ ¬ Mark.origClassName.text <:+: className) ∧
    ∀ name signature, Method lines name signature →
      name ≠ [] ∧ MethodSettled className name signature ∧ NameSettles className name signature := by
  have hsplit : (geneStubs className lines).Halts ↔
      (geneMockStub className (className ++ "Mock".toList) (parseAllMethodSymbolsFromCtags lines)).Halts ∧
      (geneGtestMethodStub (className ++ "Test".toList) (className ++ "Mock".toList)
        (parseAllMethodSymbolsFromCtags lines)).Halts := by
    unfold geneStubs Comp.Halts
    simp only [Comp.returns_bind_iff, Comp.returns_pure_iff]
    constructor
    · rintro ⟨_, a, ha, b, hb, -⟩
      exact ⟨⟨a, ha⟩, b, hb⟩
    · rintro ⟨⟨a, ha⟩, b, hb⟩
      exact ⟨_, a, ha, b, hb, rfl⟩
  rw [hsplit, geneMockStub_halts_iff, geneGtestMethodStub_halts_iff]
  constructor
  · rintro ⟨⟨hclass, hon, hmock⟩, htest⟩
    refine ⟨hclass, fun name signature hm => ?_⟩
    have he := mem_symbols_iff.2 hm
    obtain ⟨hne, -, h⟩ := method_ends_iff.1 ⟨hon _ he, hmock _ he, htest _ he⟩
    exact ⟨hne, h⟩
  · rintro ⟨hclass, h⟩
    have hends : ∀ e ∈ (parseAllMethodSymbolsFromCtags lines).entries, _ := fun e he => by
      obtain ⟨hne, hm⟩ := h e.1 e.2 (mem_symbols_iff.1 he)
      exact method_ends_iff.2 ⟨hne, hclass.1, hm⟩
    exact ⟨⟨hclass, fun e he => (hends e he).1, fun e he => (hends e he).2.1⟩,
      fun e he => (hends e he).2.2⟩

/-- The generator ends exactly if the input is settled and the names settle, as plain names do. -/
theorem geneStubs_halts_iff (className : string) (lines : List string) :
    ((geneStubs className lines).Halts ↔ Settled className lines ∧
      ∀ name signature, Method lines name signature → NameSettles className name signature) ∧
    ((∀ name signature, Method lines name signature → PlainName name) →
      ∀ name signature, Method lines name signature → NameSettles className name signature) := by
  refine ⟨?_, fun h name signature hm => (h name signature hm).settles⟩
  rw [geneStubs_halts_iff_methods]
  constructor
  · rintro ⟨hclass, h⟩
    have hfound := name_ne_nil_iff.1 fun name signature hm => (h name signature hm).1
    exact ⟨⟨hfound, hclass.1, hclass.2, fun name signature hm => (h name signature hm).2.1⟩,
      fun name signature hm => (h name signature hm).2.2⟩
  · rintro ⟨hs, hn⟩
    refine ⟨⟨hs.mockClass, hs.origClass⟩, fun name signature hm => ?_⟩
    exact ⟨name_ne_nil_iff.2 hs.found name signature hm, hs.method name signature hm, hn name signature hm⟩

def braceBelow : List string := ["Pipe\tutils/pipe/Pipe.h\t/^  Pipe() \x7b$/;\"\tf\tclass:Pipe".toList,
  "stop\tutils/pipe/Pipe.h\t/^  void stop()$/;\"\tf\tclass:Pipe".toList]

set_option maxRecDepth 8000 in
theorem braceBelow_not_found : methodLines braceBelow ≠ [] ∧
    ∃ line ∈ symbolLines braceBelow, signatureRegex.search line = none := by
  have h1 : "Pipe\tutils/pipe/Pipe.h\t/^  Pipe() \x7b$/;\"\tf\tclass:Pipe".toList = _ := String.toList_ofList
  have h2 : "stop\tutils/pipe/Pipe.h\t/^  void stop()$/;\"\tf\tclass:Pipe".toList = _ := String.toList_ofList
  unfold braceBelow
  rw [h1, h2]
  decide +kernel

theorem braceBelow_never_ends : methodLines braceBelow ≠ [] ∧ ¬ (geneStubs "Pipe".toList braceBelow).Halts := by
  obtain ⟨hne, line, hline, hnone⟩ := braceBelow_not_found
  refine ⟨hne, fun h => ?_⟩
  have h := (geneStubs_halts_iff_methods.1 h).2
  have hfound := name_ne_nil_iff.1 (fun name signature hm => (h name signature hm).1) line hline
  rw [hnone] at hfound
  cases hfound

end CWorkspace.Stub
