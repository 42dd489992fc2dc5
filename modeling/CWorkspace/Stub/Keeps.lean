import CWorkspace.Stub.Ctags
import CWorkspace.Stub.Script

/-!
# What becomes of the files

A generator should change no file there is, and make the test file of a source with methods that has none
(`MainKeeps`, `ScriptKeeps`). `generators_keep_iff` says when they do. The script tests for the test file the
wrong way round: it makes none, and where there is one it writes over it.
-/

namespace CWorkspace.Stub
open FileSystem (Keeps)

/-! ### `main` -/

/-- Ends without undefined behaviour, changes no file, and makes the test file that is missing. -/
structure MainKeeps (fs : FileSystem) (program ctagsSymbolFile origSrcFilePath : string) : Prop where
  isDefined : ¬ (main fs [program, ctagsSymbolFile, origSrcFilePath]).Returns none
  keeps : ∀ fs' status, (main fs [program, ctagsSymbolFile, origSrcFilePath]).Returns (some (fs', status)) →
    fs.Keeps fs'
  makes : fs.isFile origSrcFilePath →
    (∃ line ∈ findSymbolLinesInCtags fs ctagsSymbolFile origSrcFilePath, IsMethodLine line) →
    fs.find (geneGtestFilePath origSrcFilePath) = none →
    ∃ fs' status, (main fs [program, ctagsSymbolFile, origSrcFilePath]).Returns (some (fs', status)) ∧
      (fs'.find (geneGtestFilePath origSrcFilePath)).isSome

/-- A method line passes the filters. A test file that cannot be read cannot be written either, or has the text
already. If there is none for the source, the replacements end and its directory takes a file. -/
structure MainWrites (fs : FileSystem) (lines : List string) (origSrcFilePath : string) : Prop where
  methods : methodLines lines ≠ []
  same : ∀ i, fs.truncates (geneGtestFilePath origSrcFilePath) = some i → ∀ old, fs.content i = some old →
    ∀ text, (gtestFileStub origSrcFilePath lines).Returns text → old = text
  room : fs.isFile origSrcFilePath → fs.find (geneGtestFilePath origSrcFilePath) = none →
    (gtestFileStub origSrcFilePath lines).Halts ∧ (fs.makes (geneGtestFilePath origSrcFilePath)).isSome

/-- The test file can be read, or the ctags file has no line with the path, or `main` writes. -/
def MainSafe (fs : FileSystem) (ctagsSymbolFile origSrcFilePath : string) : Prop :=
  fs.opens (geneGtestFilePath origSrcFilePath) ∨
    findSymbolLinesInCtags fs ctagsSymbolFile origSrcFilePath = [] ∨
    MainWrites fs (findSymbolLinesInCtags fs ctagsSymbolFile origSrcFilePath) origSrcFilePath

section
variable {fs : FileSystem} {program ctagsSymbolFile origSrcFilePath : string}

theorem outputGtestStubFileToPath_files (path text : string) :
    (outputGtestStubFileToPath fs path text).1 = (fs.overwrite path text).getD fs := by
  rw [outputGtestStubFileToPath]
  cases fs.overwrite path text <;> rfl

section
variable (program : string) (hopens : ¬ fs.opens (geneGtestFilePath origSrcFilePath))
  (hlines : findSymbolLinesInCtags fs ctagsSymbolFile origSrcFilePath ≠ [])
  (hmethods : methodLines (findSymbolLinesInCtags fs ctagsSymbolFile origSrcFilePath) ≠ [])
include hopens hlines hmethods

theorem main_returns_iff (r : Option Exit) : (main fs [program, ctagsSymbolFile, origSrcFilePath]).Returns r ↔
    ∃ text, (gtestFileStub origSrcFilePath
        (findSymbolLinesInCtags fs ctagsSymbolFile origSrcFilePath)).Returns text ∧
      r = some (outputGtestStubFileToPath fs (geneGtestFilePath origSrcFilePath) text) := by
  rw [main]
  simp only [if_neg hopens, if_neg hlines, if_neg hmethods, Comp.returns_bind_iff, Comp.returns_pure_iff]

theorem main_files_iff (fs' : FileSystem) :
    (∃ status, (main fs [program, ctagsSymbolFile, origSrcFilePath]).Returns (some (fs', status))) ↔
      ∃ text, (gtestFileStub origSrcFilePath
          (findSymbolLinesInCtags fs ctagsSymbolFile origSrcFilePath)).Returns text ∧
        fs' = (fs.overwrite (geneGtestFilePath origSrcFilePath) text).getD fs := by
  simp only [main_returns_iff program hopens hlines hmethods, ← outputGtestStubFileToPath_files]
  constructor
  · rintro ⟨status, text, htext, heq⟩
    exact ⟨text, htext, congrArg Prod.fst (Option.some.inj heq)⟩
  · rintro ⟨text, htext, rfl⟩
    exact ⟨_, text, htext, rfl⟩

end

theorem mainKeeps_of_returns (status : ℕ)
    (h : main fs [program, ctagsSymbolFile, origSrcFilePath] = pure (some (fs, status)))
    (hmakes : findSymbolLinesInCtags fs ctagsSymbolFile origSrcFilePath = [] ∨
      fs.find (geneGtestFilePath origSrcFilePath) ≠ none) :
    MainKeeps fs program ctagsSymbolFile origSrcFilePath := by
  refine ⟨?_, fun fs' status' hr => ?_, fun _ hmethods hnone => ?_⟩
  · rw [h, Comp.returns_pure_iff]
    exact (Option.some_ne_none _).symm
  · rw [h, Comp.returns_pure_iff] at hr
    obtain ⟨rfl, -⟩ := Prod.mk.inj (Option.some.inj hr)
    exact Keeps.refl
  · rcases hmakes with hlines | hfind
    · rw [hlines] at hmethods
      obtain ⟨line, hline, -⟩ := hmethods
      exact absurd hline List.not_mem_nil
    · exact absurd hnone hfind

theorem main_keeps_iff : MainKeeps fs program ctagsSymbolFile origSrcFilePath ↔
    MainSafe fs ctagsSymbolFile origSrcFilePath := by
  unfold MainSafe
  by_cases hopens : fs.opens (geneGtestFilePath origSrcFilePath)
  · refine iff_of_true (mainKeeps_of_returns 1 (by rw [main, if_pos hopens]) (.inr ?_)) (.inl hopens)
    intro hnone
    rw [FileSystem.opens, hnone] at hopens
    exact absurd hopens Bool.false_ne_true
  by_cases hlines : findSymbolLinesInCtags fs ctagsSymbolFile origSrcFilePath = []
  · exact iff_of_true (mainKeeps_of_returns 1
      (by rw [main, if_neg hopens, if_pos hlines]) (.inl hlines)) (.inr (.inl hlines))
  rw [or_iff_right hopens, or_iff_right hlines]
  by_cases hmethods : methodLines (findSymbolLinesInCtags fs ctagsSymbolFile origSrcFilePath) = []
  · refine iff_of_false (fun h => h.isDefined ?_) fun h => h.methods hmethods
    rw [main, if_neg hopens, if_neg hlines, if_pos hmethods, Comp.returns_pure_iff]
  have hfiles := main_files_iff program hopens hlines hmethods
  have hmethod : ∃ line ∈ findSymbolLinesInCtags fs ctagsSymbolFile origSrcFilePath, IsMethodLine line := by
    obtain ⟨line, rest, hline⟩ := List.exists_cons_of_ne_nil hmethods
    exact ⟨line, isMethodLine_of_mem (hline ▸ List.mem_cons_self)⟩
  constructor
  · intro h
    refine ⟨hmethods, fun i hi old hold text htext => ?_, fun hfile hnone => ?_⟩
    · obtain ⟨status, hr⟩ := (hfiles _).2 ⟨text, htext, rfl⟩
      exact (FileSystem.overwrite_keeps_iff Keeps.refl _ _).1 (h.keeps _ status hr) i hi old hold
    · obtain ⟨fs', status, hr, hfound⟩ := h.makes hfile hmethod hnone
      obtain ⟨text, htext, rfl⟩ := (hfiles fs').1 ⟨status, hr⟩
      exact ⟨⟨text, htext⟩, (FileSystem.find_overwrite_iff hnone text).1 hfound⟩
  · intro h
    refine ⟨fun hr => ?_, fun fs' status hr => ?_, fun hfile _ hnone => ?_⟩
    · obtain ⟨_, -, heq⟩ := (main_returns_iff program hopens hlines hmethods none).1 hr
      cases heq
    · obtain ⟨text, htext, rfl⟩ := (hfiles fs').1 ⟨status, hr⟩
      exact (FileSystem.overwrite_keeps_iff Keeps.refl _ _).2 fun i hi old hold => h.same i hi old hold text htext
    · obtain ⟨⟨text, htext⟩, hroom⟩ := h.room hfile hnone
      obtain ⟨status, hr⟩ := (hfiles _).2 ⟨text, htext, rfl⟩
      exact ⟨_, status, hr, (FileSystem.find_overwrite_iff hnone text).2 hroom⟩

end

/-! ### The script -/

section
variable (sh : Commands) (fs : FileSystem) (origSrcFilePath : string)

/-- The words of the call that makes the test file. -/
def stubArgs : List string :=
  [origSrcFilePath, fileExt origSrcFilePath, sh.basename (sh.split fs origSrcFilePath),
    unitTestFilePath origSrcFilePath].flatMap (sh.split fs)

/-- The call comes to the redirection of a text into a path, with these files by then. -/
inductive Redirects : List string → FileSystem → string → string → Prop
  | intro {origSrcFilePath fileExt fileName unitTestFilePath path : string} {rest : List string} {fs' : FileSystem} :
    createTestFile sh fs (sh.split fs unitTestFilePath) = .ok fs' → sh.split fs' unitTestFilePath = [path] →
      Redirects (origSrcFilePath :: fileExt :: fileName :: unitTestFilePath :: rest) fs' path
        (sh.testFileStub fs' origSrcFilePath fileExt fileName ++ ['\n'])

/-- The script changes no file, and makes the test file that is missing. -/
structure ScriptKeeps : Prop where
  keeps : fs.Keeps (geneGtestStub sh fs origSrcFilePath).files
  makes : fs.isFile origSrcFilePath → (∃ line ∈ sh.ctags fs origSrcFilePath, IsMethodLine line) →
    fs.find (unitTestFilePath origSrcFilePath) = none →
    ((geneGtestStub sh fs origSrcFilePath).files.find (unitTestFilePath origSrcFilePath)).isSome

/-- A source with methods has something at the path of its test file. If that is a file, the redirection is not
reached, or goes to no file there was, or to one that cannot be written or has the text already. -/
structure ScriptSafe : Prop where
  found : fs.isFile origSrcFilePath → (∃ line ∈ sh.ctags fs origSrcFilePath, IsMethodLine line) →
    fs.find (unitTestFilePath origSrcFilePath) ≠ none
  same : fs.isFile origSrcFilePath → fs.isFile (unitTestFilePath origSrcFilePath) → ∀ fs' path text,
    Redirects sh fs (stubArgs sh fs origSrcFilePath) fs' path text → ∀ i, fs'.truncates path = some i →
      ∀ old, fs.content i = some old → old = text

end

variable {sh : Commands} {fs : FileSystem} {origSrcFilePath : string}

theorem orExit_files (result : FileSystem × Bool) : (orExit result).files = result.1 := by
  rw [orExit]
  split_ifs <;> rfl

theorem keeps_bind {s : Script} {f : FileSystem → Script} (hs : fs.Keeps s.files)
    (hf : ∀ fs', fs.Keeps fs' → fs.Keeps (f fs').files) : fs.Keeps (Script.files (s >>= f)) := by
  cases s with
  | ok fs' => exact hf fs' hs
  | error fs' => exact hs

variable (sh fs) in
theorem createTestFile_keeps (args : List string) : fs.Keeps (createTestFile sh fs args).files := by
  cases args with
  | nil => exact Keeps.refl
  | cons unitTestFilePath args =>
    have hrun : ∀ {fs' : FileSystem} {command : FileSystem → List string → FileSystem × Bool} (words : List string),
        (∀ (fs : FileSystem) args, fs.Keeps (command fs args).1) → fs.Keeps fs' →
          fs.Keeps (orExit (command fs' words)).files := fun words hcommand h => by
      rw [orExit_files]; exact h.trans (hcommand _ words)
    refine keeps_bind (hrun _ sh.mkdir_keeps Keeps.refl) fun fs' h => ?_
    exact keeps_bind (hrun _ sh.touch_keeps h) fun fs'' h' => hrun _ sh.chmod_keeps h'

theorem Redirects.unique {args : List string} {fs₁ fs₂ : FileSystem} {path₁ path₂ text₁ text₂ : string}
    (h₁ : Redirects sh fs args fs₁ path₁ text₁) (h₂ : Redirects sh fs args fs₂ path₂ text₂) :
    fs₁ = fs₂ ∧ path₁ = path₂ ∧ text₁ = text₂ := by
  cases h₁ with
  | intro hfile hpath =>
    cases h₂ with
    | intro hfile' hpath' =>
      obtain rfl := Except.ok.inj (hfile.symm.trans hfile')
      exact ⟨rfl, List.singleton_inj.1 (hpath.symm.trans hpath'), rfl⟩

theorem redirect_of_eq {text x path : string} (h : sh.split fs x = [path]) :
    (redirect sh fs text x).files = (fs.overwrite path (text ++ ['\n'])).getD fs := by
  rw [redirect, h]
  dsimp only
  cases fs.overwrite path (text ++ ['\n']) <;> rfl

theorem redirect_of_ne {text x : string} (h : ∀ path, sh.split fs x ≠ [path]) :
    redirect sh fs text x = .error fs := by
  rw [redirect]
  split
  · rename_i path hpath
    exact absurd hpath (h path)
  · rfl

variable (sh fs) in
/-- The call does not change a file before its redirection, if it comes to that. -/
theorem doGeneStubCodeToFile_cases (args : List string) :
    (∃ fs' path text, Redirects sh fs args fs' path text ∧ fs.Keeps fs' ∧
      (doGeneStubCodeToFile sh fs args).files = (fs'.overwrite path text).getD fs') ∨
    (∀ fs' path text, ¬ Redirects sh fs args fs' path text) ∧
      fs.Keeps (doGeneStubCodeToFile sh fs args).files := by
  match args with
  | [] | [_] | [_, _] | [_, _, _] => exact .inr ⟨(fun _ _ _ h => by cases h), Keeps.refl⟩
  | origSrcFilePath :: fileExt :: fileName :: unitTestFilePath :: rest =>
    have hkeeps := createTestFile_keeps sh fs (sh.split fs unitTestFilePath)
    rw [doGeneStubCodeToFile]
    cases hfile : createTestFile sh fs (sh.split fs unitTestFilePath) with
    | error fs' =>
      rw [hfile] at hkeeps
      refine .inr ⟨fun _ _ _ h => ?_, hkeeps⟩
      cases h with
      | intro hok => rw [hfile] at hok; cases hok
    | ok fs' =>
      rw [hfile] at hkeeps
      by_cases hpath : ∃ path, sh.split fs' unitTestFilePath = [path]
      · obtain ⟨path, hpath⟩ := hpath
        exact .inl ⟨fs', path, _, .intro hfile hpath, hkeeps, redirect_of_eq hpath⟩
      · have hne := not_exists.1 hpath
        refine .inr ⟨fun _ _ _ h => ?_, ?_⟩
        · cases h with
          | intro hok hpath' =>
            obtain rfl := Except.ok.inj (hfile.symm.trans hok)
            exact hne _ hpath'
        · show fs.Keeps (redirect sh fs' _ unitTestFilePath).files
          rw [redirect_of_ne hne]
          exact hkeeps

variable (sh) in
theorem geneGtestStub_files (h : ¬ (fs.isFile origSrcFilePath ∧ fs.isFile (unitTestFilePath origSrcFilePath))) :
    (geneGtestStub sh fs origSrcFilePath).files = fs := by
  unfold geneGtestStub
  split_ifs with hnil hfile htest
  · rfl
  · rfl
  · rfl
  · exact absurd ⟨by simpa using hfile, by simpa using htest⟩ h

variable (sh) in
theorem geneGtestStub_eq (hfile : fs.isFile origSrcFilePath)
    (htest : fs.isFile (unitTestFilePath origSrcFilePath)) :
    geneGtestStub sh fs origSrcFilePath = doGeneStubCodeToFile sh fs (stubArgs sh fs origSrcFilePath) := by
  have hne : origSrcFilePath ≠ [] := by
    rintro rfl
    exact absurd hfile Bool.false_ne_true
  rw [geneGtestStub, if_neg hne, hfile, htest]; rfl

theorem script_keeps_iff : ScriptKeeps sh fs origSrcFilePath ↔ ScriptSafe sh fs origSrcFilePath := by
  by_cases h : fs.isFile origSrcFilePath ∧ fs.isFile (unitTestFilePath origSrcFilePath)
  · have hfind : fs.find (unitTestFilePath origSrcFilePath) ≠ none := fun hnone => by
      have htest := h.2
      rw [FileSystem.isFile, hnone] at htest
      exact absurd htest Bool.false_ne_true
    have heq := geneGtestStub_eq sh h.1 h.2
    rcases doGeneStubCodeToFile_cases sh fs (stubArgs sh fs origSrcFilePath) with
      ⟨fs', path, text, hred, hkeeps, hfiles⟩ | ⟨hnone, hkeeps⟩
    · rw [← heq] at hfiles
      have hiff := FileSystem.overwrite_keeps_iff hkeeps path text
      rw [← hfiles] at hiff
      constructor
      · intro hs
        refine ⟨fun _ _ => hfind, fun _ _ fs₂ path₂ text₂ hred₂ => ?_⟩
        obtain ⟨rfl, rfl, rfl⟩ := hred.unique hred₂
        exact hiff.1 hs.keeps
      · intro hs
        exact ⟨hiff.2 (hs.same h.1 h.2 _ _ _ hred), fun _ _ hnone => absurd hnone hfind⟩
    · rw [← heq] at hkeeps
      exact iff_of_true ⟨hkeeps, fun _ _ hnone => absurd hnone hfind⟩
        ⟨fun _ _ => hfind, fun _ _ fs' path text hred => absurd hred (hnone fs' path text)⟩
  · have hfiles := geneGtestStub_files sh h
    constructor
    · intro hs
      refine ⟨fun hfile hmethods hnone => ?_, fun hfile htest => absurd ⟨hfile, htest⟩ h⟩
      have hmade := hs.makes hfile hmethods hnone
      rw [hfiles, hnone] at hmade
      exact absurd hmade Bool.false_ne_true
    · intro hs
      refine ⟨by rw [hfiles]; exact Keeps.refl, fun hfile hmethods hnone => ?_⟩
      exact absurd hnone (hs.found hfile hmethods)

/-- When the two generators leave the files there are alone and make the one that is missing. -/
theorem generators_keep_iff (sh : Commands) (fs : FileSystem) (program ctagsSymbolFile origSrcFilePath : string) :
    (MainKeeps fs program ctagsSymbolFile origSrcFilePath ↔ MainSafe fs ctagsSymbolFile origSrcFilePath) ∧
      (ScriptKeeps sh fs origSrcFilePath ↔ ScriptSafe sh fs origSrcFilePath) :=
  ⟨main_keeps_iff, script_keeps_iff⟩

/-- `Pipe.h` and `test/Pipe_unittest.cc`, which contains `text`. -/
def pipeFiles (text : string) : FileSystem where
  nodes := [.directory true true, .file "class Pipe;".toList true true, .directory true true, .file text true true]
  entry d name :=
    if d = 0 ∧ name = "Pipe.h".toList then some 1
    else if d = 0 ∧ name = "test".toList then some 2
    else if d = 2 ∧ name = "Pipe_unittest.cc".toList then some 3
    else none
  root := 0
  cwd := 0
  entry_lt d name i h := by
    split_ifs at h <;> (obtain rfl := Option.some.inj h; simp)

def pipeCommands : Commands where
  expand _ word := [word]
  ctags _ _ := []
  basename args := ((args.headD []).reverse.takeWhile (· ≠ '/')).reverse
  dirname args := ((args.headD []).reverse.dropWhile (· ≠ '/')).tail.reverse
  mkdir fs _ := (fs, true)
  touch fs _ := (fs, true)
  chmod fs _ := (fs, true)
  testFileStub _ _ _ _ := "// generated".toList
  mkdir_keeps _ _ := Keeps.refl
  touch_keeps _ _ := Keeps.refl
  chmod_keeps _ _ := Keeps.refl

theorem redirects_pipe (text : string) : Redirects pipeCommands (pipeFiles text)
    (stubArgs pipeCommands (pipeFiles text) "Pipe.h".toList) (pipeFiles text) "test/Pipe_unittest.cc".toList
    "// generated\n".toList :=
  .intro rfl rfl

/-- A second time the script writes what is there. -/
theorem generators_keep_iff_pipe :
    MainKeeps (pipeFiles "// generated\n".toList) "gene-gtest-stub.out".toList ".tags".toList "Pipe.h".toList ∧
      ScriptKeeps pipeCommands (pipeFiles "// generated\n".toList) "Pipe.h".toList := by
  obtain ⟨hmain, hscript⟩ := generators_keep_iff pipeCommands (pipeFiles "// generated\n".toList)
    "gene-gtest-stub.out".toList ".tags".toList "Pipe.h".toList
  refine ⟨hmain.2 (.inl (by decide)), hscript.2 ⟨fun _ _ => by decide, fun _ _ fs' path text hred i hi old hold => ?_⟩⟩
  obtain ⟨rfl, rfl, rfl⟩ := hred.unique (redirects_pipe _)
  obtain rfl : 3 = i := Option.some.inj hi
  exact (Option.some.inj hold).symm

theorem test_destroyed : ¬ ∀ (sh : Commands) (fs : FileSystem) (program ctagsSymbolFile origSrcFilePath : string),
    MainKeeps fs program ctagsSymbolFile origSrcFilePath ∧ ScriptKeeps sh fs origSrcFilePath := by
  intro h
  have hkeeps := (h pipeCommands (pipeFiles "// by hand".toList) [] [] "Pipe.h".toList).2.keeps 3 "// by hand".toList rfl
  have hafter : (geneGtestStub pipeCommands (pipeFiles "// by hand".toList) "Pipe.h".toList).files.content 3 =
      some "// generated\n".toList := by decide
  rw [hafter] at hkeeps
  exact absurd hkeeps (by decide)

end CWorkspace.Stub
