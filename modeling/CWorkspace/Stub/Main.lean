import CWorkspace.Lib.Files
import CWorkspace.Stub.Paths

/-!
# The generator's `main`

From the arguments to the files: the remaining parts of the test file, the check that there is none yet, the
lines of the source in the ctags file and the write. With no method line left `main` is undefined.
-/

namespace CWorkspace.Stub

/-! ### The parts without methods -/

def testFixtureTemplate : string := "
    ///////////////////////////
    ////// Test Fixture ///////
    ///////////////////////////

    class ${testClassName} : public ::testing::TestWithParam<std::string> \x7b
     public:
      // Per-test-case set-up. Called before the first test in this test case.
      static void SetUpTestCase() \x7b
        using namespace std;
        // shared_resource_ = new...;
      \x7d

      // Per-test-case tear-down. Called after the last test in this test case.
      static void TearDownTestCase() \x7b
        using namespace std;
        // delete shared_resource_;
        // shared_resource_ = NULL;
      \x7d

     protected:

      // Some expensive resource shared by all tests.
      // static T* shared_resource_;

      ${testClassName}() \x7b
        using namespace std;
        const ParamType testParam = GetParam();
        //
      \x7d

      ~${testClassName}() \x7b
        //
      \x7d

      void SetUp() override \x7b
        using namespace std;
        const ParamType testParam = GetParam();
        // Code here will be called immediately after the constructor (right before each test).
      \x7d

      void TearDown() override \x7b
        using namespace std;
        const ParamType testParam = GetParam();
        // Code here will be called immediately after each test (right before the destructor).
      \x7d

      // Objects declared here can be used by all tests in the test case for Foo.
    \x7d;

    // T* PipeTest::shared_resource_ = NULL;

    using ParamType         = std::string;  // 请按测试需要修改 Value-Parameterized 类型
    ParamType valueParams[] = \x7b\"foo\"\x7d;    // 请按测试需要修改 测试参数

    INSTANTIATE_TEST_CASE_P(${origClassName}_UnitTest, ${testClassName}, ::testing::ValuesIn(valueParams));
  ".toList

def geneGtestTestFixtureClassStub (origClassName testClassName : string) : Comp string := do
  let stub ← replaceIn testFixtureTemplate "${testClassName}".toList testClassName
  replaceIn stub "${origClassName}".toList origClassName

def geneAssertionsStub : string := "
    ///////////////////////////
    /////// Assertions ////////
    ///////////////////////////

    /**
     * 请按测试需要修改，输出更有意义的报错信息
     *
     * 用法:
     *   EXPECT_TRUE(isEven(3)); // 输出写入 AssertionFailure() 的数据
     *   EXPECT_FALSE(isEven(4)); // 输出写入 AssertionSuccess() 的数据
     */
    const auto isEven = [](int n) -> ::testing::AssertionResult \x7b
      if ((n % 2) == 0) \x7b
        return ::testing::AssertionSuccess() << n << \" is even\";
      \x7d else \x7b
        return ::testing::AssertionFailure() << n << \" is odd\";
      \x7d
    \x7d;
  ".toList

def geneMatcherStub : string := "
    /////////////////////////
    /////// Matchers ////////
    /////////////////////////

    // Equal
    using ::testing::AllOf;
    using ::testing::AnyNumber;
    using ::testing::Eq;
    using ::testing::Ge;
    using ::testing::Gt;
    using ::testing::IsNull;
    using ::testing::Le;
    using ::testing::Lt;
    using ::testing::Ne;
    using ::testing::NotNull;
    using ::testing::Optional;
    using ::testing::Ref;
    using ::testing::TypedEq;
    using ::testing::VariantWith;

    // float
    using ::testing::DoubleEq;
    using ::testing::DoubleNear;
    using ::testing::FloatEq;
    using ::testing::FloatNear;
    using ::testing::NanSensitiveDoubleEq;
    using ::testing::NanSensitiveDoubleNear;
    using ::testing::NanSensitiveFloatEq;
    using ::testing::NanSensitiveFloatNear;

    // string
    using ::testing::ContainsRegex;
    using ::testing::EndsWith;
    using ::testing::HasSubstr;
    using ::testing::MatchesRegex;
    using ::testing::StartsWith;
    using ::testing::StrCaseEq;
    using ::testing::StrCaseNe;
    using ::testing::StrEq;
    using ::testing::StrNe;

    // container
    using ::testing::ContainerEq;
    using ::testing::Contains;
    using ::testing::Each;
    using ::testing::ElementsAre;
    using ::testing::ElementsAreArray;
    using ::testing::IsEmpty;
    using ::testing::Pointwise;
    using ::testing::SizeIs;
    using ::testing::UnorderedElementsAre;
    using ::testing::WhenSorted;
    using ::testing::WhenSortedBy;

    /**
     * Matcher 用法: 可以用在 ASSERT_THAT / EXPECT_THAT / EXPECT_CALL 中
     *
     * E.g:
     *
     *   EXPECT_THAT(\"hello_world\", StartsWith(\"hello\"));
     *
     *   // 结合 mock
     *   EXPECT_CALL(foo, methodXXX( AllOf(Gt(5),Ne(10)) )); // foo.methodXXX() 接收的参数 must be > 5 and != 10.
     *   EXPECT_CALL(foo, InRange( Ne(0), _ )).With(Lt());
     *   EXPECT_CALL(foo, methodXXX(Lt(5))).WillRepeatedly(Return('a'));
     *
     * 速查文档:
     *
     * Matcher API:
     *   https://github.com/abseil/googletest/blob/master/googlemock/docs/CheatSheet.md
     *
     * Matcher UserGuide:
     *   https://github.com/abseil/googletest/blob/master/googlemock/docs/CookBook.md#using-matchers
     */
  ".toList

/-- The list is not empty. -/
def join (v : List string) (separator : string) : string :=
  v.tail.foldl (fun accu element => accu ++ separator ++ element) (v.headD [])

def gtestFileTemplate : string := "
    #include \"${origSrcFilePath}\"
    #include \"gmock/gmock.h\"
    #include \"gtest/gtest.h\"

    using namespace std;

    namespace \x7b

      ${stubBlockList}

    \x7d // namespace
  ".toList

def geneGtestFileStub (origSrcFilePath : string) (subBlockList : List string) : Comp string := do
  let stub ← replaceIn gtestFileTemplate "${origSrcFilePath}".toList origSrcFilePath
  replaceIn stub "${stubBlockList}".toList (join subBlockList "\n".toList)

/-- `.+/(.+?)\..+` -/
def classNameRegex : Regex :=
  .seq (.rep false 1 .any) <| .seq (.char '/') <| .seq (.group 1 (.rep true 1 .any)) <|
    .seq (.char '.') (.rep false 1 .any)

def getClassNameFromPath (origSrcFilePath : string) : string :=
  Regex.str (classNameRegex.search origSrcFilePath) 1

def gtestFileStub (origSrcFilePath : string) (lines : List string) : Comp string := do
  let className := getClassNameFromPath origSrcFilePath
  let testClassName := className ++ "Test".toList
  let testFixtureClassStub ← geneGtestTestFixtureClassStub className testClassName
  let stubs ← geneStubs className lines
  geneGtestFileStub origSrcFilePath
    [testFixtureClassStub, geneAssertionsStub, geneMatcherStub, stubs.1, stubs.2]

/-! ### Reading and writing -/

def getLines (text : string) : List string :=
  let lines := text.splitOn '\n'
  if lines.getLast? = some [] then lines.dropLast else lines

/-- No lines if the file does not open. -/
def findSymbolLinesInCtags (fs : FileSystem) (ctagsFileName targetFilePath : string) : List string :=
  if !fs.opens ctagsFileName then []
  else
    (getLines (((fs.find ctagsFileName).bind fs.content).getD [])).filter (find targetFilePath · ≠ none)

/-- The files and the exit status. -/
abbrev Exit := FileSystem × ℕ

def outputGtestStubFileToPath (fs : FileSystem) (gtestFilePath gtestFileStub : string) : Exit :=
  match fs.overwrite gtestFilePath gtestFileStub with
  | some fs' => (fs', 0)
  | none => (fs, 1)

/-- `none` where the step past the first method line is undefined. -/
def main (fs : FileSystem) (argv : List string) : Comp (Option Exit) :=
  match argv with
  | [_, ctagsSymbolFile, origSrcFilePath] =>
    let gtestFilePath := geneGtestFilePath origSrcFilePath
    -- makesure_file_not_exist
    if fs.opens gtestFilePath then pure (some (fs, 1))
    else
      let lines := findSymbolLinesInCtags fs ctagsSymbolFile origSrcFilePath
      if lines = [] then pure (some (fs, 1))
      else if methodLines lines = [] then pure none
      else do
        let gtestFileStub ← gtestFileStub origSrcFilePath lines
        return some (outputGtestStubFileToPath fs gtestFilePath gtestFileStub)
  | _ => pure (some (fs, 1))

end CWorkspace.Stub
