import CWorkspace.Lib.OrderedMap
import CWorkspace.Lib.Regex
import CWorkspace.Lib.ReplaceLoop
import Mathlib.Algebra.GroupWithZero.Nat
import Mathlib.Data.Char
import Mathlib.Data.List.Lex

/-!
# The test-stub generator (`cpp/scripts/gene-gtest-stub.cpp`)

From the ctags lines of a class to the mock and the test stubs. `replaceAll` calls itself on its own result
for as long as `from` occurs in it, so all that uses it is a `Comp`: it ends where rewriting ends, with the same
string, and then always returns `false` (`replaceAll_returns_iff`).
-/

namespace CWorkspace.Stub

abbrev string := List Char

theorem forall_mem_of_all {s : string} {P : Char → Prop} [DecidablePred P] (h : (s.all fun c => P c) = true) :
    ∀ c ∈ s, P c := by
  intro c hc
  simpa using List.all_eq_true.1 h c hc

def replaceStep (from' to' : string) (str : string) : string ⊕ (string × Bool) :=
  match find from' str with
  | none => .inr (str, false)
  | some start_pos => .inl (str.take start_pos ++ to' ++ str.drop (start_pos + from'.length))

/-- The string it leaves behind and the value it returns. -/
def replaceAll (str from' to' : string) : Comp (string × Bool) := Comp.loop (replaceStep from' to') str

/-- The call as the generator makes it: on a variable, the value ignored. -/
def replaceIn (str from' to' : string) : Comp string := do return (← replaceAll str from' to').1

section
variable {str from' to' : string}

theorem replaceStep_eq : replaceStep from' to' = replaceFirst from' to' := by
  funext str
  unfold replaceStep replaceFirst
  cases find from' str <;> rfl

theorem replaceAll_returns_iff {r : string × Bool} :
    (replaceAll str from' to').Returns r ↔ Rewrites from' to' str r.1 ∧ r.2 = false := by
  rw [replaceAll, replaceStep_eq]
  exact replaceLoop_returns_iff

theorem replaceIn_returns_iff {r : string} :
    (replaceIn str from' to').Returns r ↔ Rewrites from' to' str r := by
  unfold replaceIn
  simp only [Comp.returns_bind_iff, replaceAll_returns_iff, Comp.returns_pure_iff]
  constructor
  · rintro ⟨_, ⟨h, -⟩, rfl⟩
    exact h
  · intro h
    exact ⟨(r, false), ⟨h, rfl⟩, rfl⟩

end

/-- What `snprintf` is taken to write for `%0Nc` and `'0'`; C leaves the flag undefined here. -/
def zeroPadded (n : ℕ) : string := List.replicate n '0'

def to_string (n : ℕ) : string := Nat.toDigits 10 n

/-! ### Methods and their signatures -/

abbrev MethodSymbols := OrderedMap string string

def reduceMethodSymbols (symbols : MethodSymbols) (lamda : string → string → string → Comp string) :
    Comp string :=
  symbols.entries.foldlM (fun accu symbol => lamda accu symbol.1 symbol.2) []

/-- `.+\( *(void)? *\).*` -/
def noParamRegex : Regex :=
  .seq (.rep false 1 .any) <| .seq (.char '(') <| .seq (.rep false 0 (.char ' ')) <|
    .seq (.opt (.group 1 (.lits "void".toList))) <| .seq (.rep false 0 (.char ' ')) <|
    .seq (.char ')') (.rep false 0 .any)

/-- A `uint`, as is the number of commas. -/
def countMethodParams (methodSignature : string) : ℕ :=
  let paramNum := methodSignature.count ',' % 2 ^ 32
  if paramNum > 0 then (paramNum + 1) % 2 ^ 32
  else if (noParamRegex.fullMatch methodSignature).isSome then 0
  else 1

def geneOnCallMethodParamSig (paramNum : ℕ) : Comp string :=
  if paramNum = 0 then pure []
  else do
    let signature ← replaceIn (zeroPadded paramNum) "0".toList "_,".toList
    return signature.dropLast

/-! ### The mock -/

def onCallTemplate : string := "
                              ON_CALL(*this, __method_name__(__on_call_method_param_sig__))
                              .WillByDefault(Invoke(&_real, &$origClassName::__method_name__));".toList

def mockMethodTemplate : string := "
          MOCK_METHOD__method_param_count__(__method_name__, __method_signature__);".toList

def mockStubTemplate : string := "
    /////////////////////////
    /////// Mocking  ////////
    /////////////////////////

    using ::testing::AnyNumber;
    using ::testing::AtLeast;
    using ::testing::AtMost;
    using ::testing::Between;
    using ::testing::Exactly;

    using ::testing::_;

    using ::testing::Invoke;
    using ::testing::MockFunction;

    /**
     * Mock，行为代理到真正的对象，由此你可以测试 调用时参数/顺序/次数/...，而这个 Mock 的输出却是和生产环境一样！
     *
     * 用法:
     *
     *   ${mockClassName} mock;
     *   EXPECT_CALL(mock, methodXXX()).Times(3);
     *   // 使用 mock
     *   // ...
     */

    // 请按测试需要修改
    class ${mockClassName} : public ${origClassName} \x7b
     public:
      ${mockClassName}() \x7b
        // 需要代理到真正的对象来执行的方法
        ${onCallStub}
      \x7d

      // 需要拿 Mock 封装一层的方法，这些方法会被 Mock 检验调用状态
      ${mockMethodStub}

     private:
      // 初始化真正的对象
      ${origClassName} _real;
    \x7d;
  ".toList

def onCallStubOf (origClassName methodName methodSignature : string) : Comp string := do
  let methodParamCount := countMethodParams methodSignature
  let onCallMethodParamSig ← geneOnCallMethodParamSig methodParamCount
  let onCall ← replaceIn onCallTemplate "__method_name__".toList methodName
  let onCall ← replaceIn onCall "__on_call_method_param_sig__".toList onCallMethodParamSig
  replaceIn onCall "$origClassName".toList origClassName

def mockMethodStubOf (methodName methodSignature : string) : Comp string := do
  let methodParamCount := countMethodParams methodSignature
  -- the signature without the name
  let sigCopy ← replaceIn methodSignature methodName []
  let mockMethod ← replaceIn mockMethodTemplate "__method_name__".toList methodName
  let mockMethod ← replaceIn mockMethod "__method_signature__".toList sigCopy
  replaceIn mockMethod "__method_param_count__".toList (to_string methodParamCount)

def geneMockStub (origClassName mockClassName : string) (symbols : MethodSymbols) : Comp string := do
  let onCallStub ← reduceMethodSymbols symbols fun accu methodName methodSignature => do
    return accu ++ (← onCallStubOf origClassName methodName methodSignature)
  let mockMethodStub ← reduceMethodSymbols symbols fun accu methodName methodSignature => do
    return accu ++ (← mockMethodStubOf methodName methodSignature)
  let mockStub ← replaceIn mockStubTemplate "${mockClassName}".toList mockClassName
  let mockStub ← replaceIn mockStub "${origClassName}".toList origClassName
  let mockStub ← replaceIn mockStub "${onCallStub}".toList onCallStub
  replaceIn mockStub "${mockMethodStub}".toList mockMethodStub

/-! ### The tests -/

def methodStubTemplate : string := "
                              // test for: __method_signature__
                              TEST_P(${testClassName}, __method_name__) \x7b
                                using namespace std;

                                const ParamType& testParam = GetParam();

                                // 默认模式 Mock，没有被 EXPECT_CALL 的方法会打印 warning，请按测试需要修改
                                ${mockClassName} mock;
                                // 配置/使用 mock
                              \x7d
                            ".toList

def unitTestHeader : string := "
    /////////////////////////
    ////// Unit Test  ///////
    /////////////////////////
  ".toList

def methodStubOf (testClassName mockClassName methodName methodSignature : string) : Comp string := do
  let stubCopy ← replaceIn methodStubTemplate "__method_name__".toList methodName
  let stubCopy ← replaceIn stubCopy "__method_signature__".toList methodSignature
  let stubCopy ← replaceIn stubCopy "${testClassName}".toList testClassName
  replaceIn stubCopy "${mockClassName}".toList mockClassName

def geneGtestMethodStub (testClassName mockClassName : string) (methodSymbols : MethodSymbols) :
    Comp string := do
  let methodStub ← reduceMethodSymbols methodSymbols fun accu methodName methodSignature => do
    return accu ++ (← methodStubOf testClassName mockClassName methodName methodSignature)
  return unitTestHeader ++ methodStub

/-! ### Reading the ctags lines -/

/-- `\tf\tclass:.+` -/
def funcLineRegex : Regex := .seq (.lits "\tf\tclass:".toList) (.rep false 1 .any)

/-- `~.+?\(\)` -/
def dtocRegex : Regex := .seq (.char '~') <| .seq (.rep true 1 .any) (.lits "()".toList)

/-- `^(.+?)\t.+?/\^  (.+?)\x7b.+`: 1 is the name, 2 the signature. -/
def signatureRegex : Regex :=
  .seq .bol <| .seq (.group 1 (.rep true 1 .any)) <| .seq (.char '\t') <| .seq (.rep true 1 .any) <|
    .seq (.lits "/^  ".toList) <| .seq (.group 2 (.rep true 1 .any)) <| .seq (.char '\x7b') (.rep false 1 .any)

/-- The lines that are left once those of other things than methods, and of destructors, are removed. -/
def methodLines (lines : List string) : List string :=
  lines.filter fun line => (funcLineRegex.search line).isSome && !(dtocRegex.search line).isSome

/-- The lines the symbols are taken from: all method lines but the first. -/
def symbolLines (lines : List string) : List string := (methodLines lines).tail

def parseAllMethodSymbolsFromCtags (lines : List string) : MethodSymbols :=
  (symbolLines lines).foldl (fun accu line =>
    let found := signatureRegex.search line
    accu.emplace (Regex.str found 1) (Regex.str found 2)) ∅

/-- The part of `main` from the lines of the file to the mock and the tests. -/
def geneStubs (className : string) (lines : List string) : Comp (string × string) := do
  let mockClassName := className ++ "Mock".toList
  let testClassName := className ++ "Test".toList
  let methodSymbols := parseAllMethodSymbolsFromCtags lines
  let mockStubCode ← geneMockStub className mockClassName methodSymbols
  let testMethodsStub ← geneGtestMethodStub testClassName mockClassName methodSymbols
  return (mockStubCode, testMethodsStub)

end CWorkspace.Stub
