import CWorkspace.Stub.Types

/-!
# The wildcards of ON_CALL

The argument list of ON_CALL is `_` once for each parameter, with commas between, and MOCK_METHOD has the number
of them at its end. Both go through the replacements after them as they are (`wildcards_match_arity`).
-/

namespace CWorkspace.Stub

def wildcards (n : ℕ) : string := List.intercalate ",".toList (List.replicate n "_".toList)

example : wildcards 0 = "".toList ∧ wildcards 1 = "_".toList ∧ wildcards 3 = "_,_,_".toList := by decide

theorem wildcards_succ (n : ℕ) : wildcards (n + 1) ++ ",".toList = (List.replicate (n + 1) "_,".toList).flatten := by
  induction n with
  | zero => rfl
  | succ n ih =>
    have hcons : wildcards (n + 2) = "_,".toList ++ wildcards (n + 1) := by
      simp [wildcards, List.replicate_succ, List.intercalate_cons_cons]
    rw [hcons, List.append_assoc, ih, List.replicate_succ (n := n + 1), List.flatten_cons]

theorem paramSig_eq_wildcards (n : ℕ) : paramSig n = wildcards n := by
  cases n with
  | zero => rfl
  | succ n =>
    rw [paramSig, ← wildcards_succ]
    exact List.dropLast_concat

def onCallStatement (args name origClassName : string) : string :=
  "\n                              ON_CALL(*this, ".toList ++ name ++ "(".toList ++ args ++
    "))\n                              .WillByDefault(Invoke(&_real, &".toList ++ origClassName ++ "::".toList ++
    name ++ "));".toList

set_option maxRecDepth 8000 in
theorem fill_onCallTemplate (args name origClassName : string) :
    fill onCallTemplate onCallMarks [name, args, origClassName, name] = onCallStatement args name origClassName := by
  have hcut : cut onCallMarks onCallTemplate =
      ["\n                              ON_CALL(*this, ".toList, "(".toList,
        "))\n                              .WillByDefault(Invoke(&_real, &".toList, "::".toList, "));".toList] := by
    have h : onCallTemplate = _ := String.toList_ofList
    rw [h]
    decide +kernel
  have hholes : ∀ a b c d e : string, weave a [b, c, d, e] [name, args, origClassName, name] =
      a ++ name ++ b ++ args ++ c ++ origClassName ++ d ++ name ++ e := by
    intro a b c d e
    simp [weave, holes]
  show weave ((cut onCallMarks onCallTemplate).headD []) (cut onCallMarks onCallTemplate).tail _ = _
  rw [hcut]
  exact hholes _ _ _ _ _

/-- The stub of a method is not changed when the stubs of MOCK_METHOD are put in, but for the two names in it. -/
theorem rewrites_onCallStatement {rep args name orig r : string} (hargs : ¬ Mark.mockMethodStub.text <:+: args)
    (h : Rewrites Mark.mockMethodStub.text rep (onCallStatement args name orig) r) :
    ∃ name' orig', Rewrites Mark.mockMethodStub.text rep name name' ∧ r = onCallStatement args name' orig' := by
  rw [← fill_onCallTemplate, onCallTemplate_marks.rewrites_fill (by simp) (by rfl)] at h
  obtain ⟨_, hall, hr⟩ := h
  rcases hall with _ | ⟨h1, _ | ⟨h2, _ | ⟨h3, _ | ⟨h4, _ | _⟩⟩⟩⟩
  obtain rfl := h2.eq_of_free hargs
  obtain rfl := h4.unique h1
  exact ⟨_, _, h1, hr.trans (fill_onCallTemplate _ _ _)⟩

/-! ### The two statements of a method -/

/-- The name that stands in a statement: a name without marks as it is. -/
def Stands (methodName name : string) : Prop := (∀ mark : Mark, ¬ mark.text <:+: methodName) → name = methodName

/-- The ON_CALL statement of a method, with `n` wildcards. -/
def IsOnCall (methodName : string) (n : ℕ) (statement : string) : Prop :=
  ∃ name orig, Stands methodName name ∧ statement = onCallStatement (wildcards n) name orig

/-- Its MOCK_METHOD statement, with `n` as the number of its parameters. -/
def IsMockMethod (methodName : string) (n : ℕ) (statement : string) : Prop :=
  ∃ name types, Stands methodName name ∧ statement = mockMethodStatement (to_string n) name types

section
variable {className name signature r : string}

theorem Stands.rewrites {mark : Mark} {rep name' : string} (h : Stands r name)
    (hname : Rewrites mark.text rep name name') : Stands r name' := by
  intro hfree
  obtain rfl := h hfree
  exact hname.eq_of_free (hfree mark)

theorem isOnCall_of_returns {stub rep s : string} (h : (onCallStubOf className name signature).Returns stub)
    (hs : Rewrites Mark.mockMethodStub.text rep stub s) : IsOnCall name (countMethodParams signature) s := by
  obtain ⟨-, n, hn, -, n', hn', hstub⟩ := onCallStubOf_returns_iff.1 h
  have hstands : Stands name n' := Stands.rewrites (Stands.rewrites (fun _ => rfl) hn) hn'
  have hargs : ¬ Mark.mockMethodStub.text <:+: paramSig (countMethodParams signature) :=
    not_infix_paramSig (c := '$') (by decide) (by decide) (by decide) _
  rw [paramSig_eq_wildcards] at hstub hargs
  rw [hstub, fill_onCallTemplate] at hs
  obtain ⟨n'', orig, hn'', hs⟩ := rewrites_onCallStatement hargs hs
  exact ⟨n'', orig, hstands.rewrites hn'', hs⟩

theorem isMockMethod_of_returns (h : (mockMethodStubOf name signature).Returns r) :
    IsMockMethod name (countMethodParams signature) r := by
  obtain ⟨left, -, -, -, n, hn, n', hn', types, -, hr⟩ := mockMethodStubOf_returns_iff.1 h
  rw [fill_mockMethodTemplate] at hr
  exact ⟨n', types, Stands.rewrites (Stands.rewrites (fun _ => rfl) hn) hn', hr⟩

end

/-- The argument list is built for every number of parameters, and each method has as many wildcards in its ON_CALL
as the number in its MOCK_METHOD says. -/
theorem wildcards_match_arity :
    (∀ paramNum signature, (geneOnCallMethodParamSig paramNum).Returns signature ↔ signature = wildcards paramNum) ∧
    ∀ origClassName mockClassName symbols text, (geneMockStub origClassName mockClassName symbols).Returns text →
      ∃ onCalls mockMethods,
        List.Forall₂ (fun e => IsOnCall e.1 (countMethodParams e.2)) symbols.entries onCalls ∧
        List.Forall₂ (fun e => IsMockMethod e.1 (countMethodParams e.2)) symbols.entries mockMethods ∧
        ∃ mock orig, text = mockClass mock orig onCalls.flatten mockMethods.flatten := by
  refine ⟨fun n r => ?_, fun orig mock symbols text h => ?_⟩
  · rw [geneOnCallMethodParamSig_returns_iff, paramSig_eq_wildcards]
  · obtain ⟨_, _, _, m, o, honCall, hmock, hc, htext⟩ := geneMockStub_returns h
    obtain ⟨stubs, hstubs, rfl⟩ := eachMethod_returns_iff.1 honCall
    obtain ⟨mockMethods, hmethods, rfl⟩ := eachMethod_returns_iff.1 hmock
    have hends := Comp.forall_mem_of_forall₂ (fun e r h => onCallStubOf_ends h) hstubs
    rw [rewrites_flatten Mark.mockMethodStub.ne_nil (by decide) fun w hw => (hends w hw).1] at hc
    obtain ⟨onCalls, hcalls, rfl⟩ := hc
    refine ⟨onCalls, mockMethods, ?_, hmethods.imp fun _ _ h => isMockMethod_of_returns h, m, o, htext⟩
    refine Comp.forall₂_trans (fun e stub s hstub hs => ?_) hstubs hcalls
    exact isOnCall_of_returns hstub hs

def pipeSend : Declared where
  pre := "void ".toList
  name := "send".toList
  rest := "int fd, int size) ".toList
  identifier := ⟨by decide, forall_mem_of_all (by decide), fun c hc => by
    obtain rfl : 's' = c := Option.some.inj hc
    rfl⟩
  boundary := void_boundary

def pipeSymbols : MethodSymbols := (∅ : MethodSymbols).emplace pipeSend.name pipeSend.signature

theorem pipeSymbols_halts : (geneMockStub "Pipe".toList ("Pipe".toList ++ "Mock".toList) pipeSymbols).Halts := by
  have hplain : PlainName pipeSend.name := by unfold PlainName; decide
  have hsettles : NameSettles "Pipe".toList pipeSend.name pipeSend.signature := hplain.settles
  have hleft : ∀ left, Rewrites pipeSend.name [] pipeSend.signature left →
      ¬ Mark.signature.text <:+: left ∧ ¬ Mark.mockMethodStub.text <:+: left := by
    intro left hleft
    obtain rfl := (pipeSend.rewrites_name (by decide) (by decide)).unique hleft
    decide
  rw [geneMockStub_halts_iff]
  refine ⟨by decide, fun e he => ?_, fun e he => ?_⟩
  · rw [List.mem_singleton.1 he, onCallStubOf_ends_iff]
    exact ⟨by decide, hsettles.onCall⟩
  · rw [List.mem_singleton.1 he, mockMethodStubOf_ends_iff]
    exact ⟨by decide, fun left h => ⟨hleft left h, hsettles.mockMethod left h⟩⟩

theorem wildcards_match_arity_pipe : ∃ text,
    (geneMockStub "Pipe".toList ("Pipe".toList ++ "Mock".toList) pipeSymbols).Returns text ∧
    ∃ onCalls mockMethods,
      List.Forall₂ (fun e => IsOnCall e.1 (countMethodParams e.2)) pipeSymbols.entries onCalls ∧
      List.Forall₂ (fun e => IsMockMethod e.1 (countMethodParams e.2)) pipeSymbols.entries mockMethods ∧
      ∃ mock orig, text = mockClass mock orig onCalls.flatten mockMethods.flatten := by
  obtain ⟨text, h⟩ := pipeSymbols_halts
  exact ⟨text, h, wildcards_match_arity.2 _ _ _ _ h⟩

end CWorkspace.Stub
