import CWorkspace.Stub.Main

/-!
# The generator's shell script (`cpp/scripts/gene-gtest-stub.sh`)

The commands of the system are given as a `Commands`. Every variable outside quotes is split into words and its
patterns are put file names for; the script ends at the first command that fails.
-/

namespace CWorkspace.Stub
open Shell (words)

/-- What the script calls, with what it prints or does to the files; none of it changes the text of a file. -/
structure Commands where
  /-- the file names put in for a word -/
  expand : FileSystem → string → List string
  /-- the lines `ctags -f -` prints for a source -/
  ctags : FileSystem → string → List string
  basename : List string → string
  dirname : List string → string
  /-- the files afterwards, and whether the command has succeeded -/
  mkdir : FileSystem → List string → FileSystem × Bool
  touch : FileSystem → List string → FileSystem × Bool
  chmod : FileSystem → List string → FileSystem × Bool
  /-- `TEST_FILE_STUB`, from `origSrcFilePath`, `fileExt` and `fileName` -/
  testFileStub : FileSystem → string → string → string → string
  mkdir_keeps : ∀ (fs : FileSystem) args, fs.Keeps (mkdir fs args).1
  touch_keeps : ∀ (fs : FileSystem) args, fs.Keeps (touch fs args).1
  chmod_keeps : ∀ (fs : FileSystem) args, fs.Keeps (chmod fs args).1

abbrev Script := Except FileSystem FileSystem

def Script.files : Script → FileSystem
  | .ok fs => fs
  | .error fs => fs

/-- `set -e` -/
def orExit (result : FileSystem × Bool) : Script := if result.2 then .ok result.1 else .error result.1

variable (sh : Commands)

/-- A variable outside quotes. -/
def Commands.split (fs : FileSystem) (x : string) : List string := (words x).flatMap (sh.expand fs)

def createTestFile (fs : FileSystem) : List string → Script
  | [] => .error fs
  | unitTestFilePath :: _ => do
    let fs ← orExit (sh.mkdir fs (sh.split fs (sh.dirname (sh.split fs unitTestFilePath))))
    let fs ← orExit (sh.touch fs (sh.split fs unitTestFilePath))
    orExit (sh.chmod fs (sh.split fs unitTestFilePath))

/-- `echo text > $path`: more or fewer words than one are an error. -/
def redirect (fs : FileSystem) (text path : string) : Script :=
  match sh.split fs path with
  | [path] =>
    match fs.overwrite path (text ++ ['\n']) with
    | some fs => .ok fs
    | none => .error fs
  | _ => .error fs

def doGeneStubCodeToFile (fs : FileSystem) : List string → Script
  | origSrcFilePath :: fileExt :: fileName :: unitTestFilePath :: _ => do
    let fs ← createTestFile sh fs (sh.split fs unitTestFilePath)
    redirect sh fs (sh.testFileStub fs origSrcFilePath fileExt fileName) unitTestFilePath
  -- a parameter is unbound
  | _ => .error fs

def geneGtestStub (fs : FileSystem) (origSrcFilePath : string) : Script :=
  if origSrcFilePath = [] then .error fs
  else
    let fileName := sh.basename (sh.split fs origSrcFilePath)
    if !fs.isFile origSrcFilePath then .ok fs
    else if !fs.isFile (unitTestFilePath origSrcFilePath) then .ok fs
    else doGeneStubCodeToFile sh fs
      ([origSrcFilePath, fileExt origSrcFilePath, fileName, unitTestFilePath origSrcFilePath].flatMap (sh.split fs))

end CWorkspace.Stub
