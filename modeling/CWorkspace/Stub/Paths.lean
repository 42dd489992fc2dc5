import CWorkspace.Lib.Paths
import CWorkspace.Stub.Gene

/-!
# The path of the test file

The generator, its shell script and the runner (`cpp/scripts/gtest.sh`) each make the path of the test file
from the path of the source. `agree_iff` says for which paths they mean the same file.
-/

namespace CWorkspace.Stub
open Shell (fit removeShortestPrefix removeLongestSuffix removeFirst words isBlank)
open Paths (SameFile Names FileNames components)

/-- `(.+)\..+` -/
def stemRegex : Regex := .seq (.group 1 (.rep false 1 .any)) <| .seq (.char '.') (.rep false 1 .any)

def unitTestSuffix : string := "_unittest.cc".toList

/-- The path in `gene-gtest-stub.cpp`. -/
def geneGtestFilePath (origSrcFilePath : string) : string :=
  "test/".toList ++ Regex.str (stemRegex.search origSrcFilePath) 1 ++ unitTestSuffix

def fileExt (origSrcFilePath : string) : string := '.' :: removeShortestPrefix "*.".toList origSrcFilePath

/-- The path in `gene-gtest-stub.sh`. -/
def unitTestFilePath (origSrcFilePath : string) : string :=
  "test/".toList ++ removeFirst (fileExt origSrcFilePath) origSrcFilePath ++ unitTestSuffix

def testFilePath (src : string) : string :=
  let src := if fit "test/*".toList src then removeFirst "test/".toList src else src
  if fit ('*' :: unitTestSuffix) src then src else removeLongestSuffix ".*".toList src ++ unitTestSuffix

/-- The runner's paths. Each is expanded outside quotes, `expand` putting in file names; at a path that is not
a file the script ends. -/
def geneUnitTestFileNames (isFile : string → Bool) (expand : string → List string) (rootDir : string) :
    List string → Option (List string)
  | [] => some []
  | src :: srcs =>
    if !isFile (rootDir ++ '/' :: src) then none
    else (geneUnitTestFileNames isFile expand rootDir srcs).map
      ((words (rootDir ++ "/test/".toList ++ testFilePath src)).flatMap expand ++ ·)

/-- A relative path outside `test/` whose last component has an extension. It is one line of text, as the ctags
file has it. -/
structure SourcePath where
  stem : string
  extension : string
  stem_ne : stem ≠ []
  stem_last : stem.getLast? ≠ some '/'
  stem_head : stem.head? ≠ some '/'
  extension_ne : extension ≠ []
  extension_free : '.' ∉ extension ∧ '/' ∉ extension
  outside : ¬ "test/".toList <+: stem ++ '.' :: extension
  line : ∀ a ∈ stem ++ '.' :: extension, Regex.isAny a

namespace SourcePath

def path (p : SourcePath) : string := p.stem ++ '.' :: p.extension

def testFile (p : SourcePath) : string := "test/".toList ++ p.stem ++ unitTestSuffix

theorem testFile_eq (p : SourcePath) : p.testFile = "test/".toList ++ p.stem ++ unitTestSuffix := rfl

end SourcePath

/-- The runner compiles one file below the root, the one that both generators write. -/
def Agree (rootDir origSrcFilePath : string) : Prop :=
  ∀ isFile expand, isFile (rootDir ++ '/' :: origSrcFilePath) → FileNames expand →
    ∃ compiled, geneUnitTestFileNames isFile expand rootDir [origSrcFilePath] =
        some [rootDir ++ '/' :: compiled] ∧
      SameFile compiled (geneGtestFilePath origSrcFilePath) ∧
      SameFile compiled (unitTestFilePath origSrcFilePath)

/-- The path has one dot, its extension, read as a pattern, matches itself, and the shell leaves the path of the
test file as it is. -/
structure Conventional (rootDir : string) (p : SourcePath) : Prop where
  dot : '.' ∉ p.stem
  suffix : ¬ unitTestSuffix <:+ p.path
  extension : fit p.extension p.extension
  free : ∀ c ∈ rootDir ++ '/' :: p.testFile, isBlank c = false
  self : ∀ path, Names (rootDir ++ '/' :: p.testFile) path → path = rootDir ++ '/' :: p.testFile

/-! ### The three paths of a source -/

section
variable (p : SourcePath)

/-- The greedy group goes on to the last dot. -/
theorem geneGtestFilePath_path : geneGtestFilePath p.path = p.testFile := by
  have hone : ∀ caps, (Regex.rep false 1 .any).ways ⟨false, p.extension, caps⟩ ≠ [] := fun caps => by
    rw [Regex.ways_rep_any_ne_nil]
    obtain ⟨c, rest, hext⟩ := List.exists_cons_of_ne_nil p.extension_ne
    rw [hext]
    exact p.line c (by simp [hext])
  have hways := Regex.head?_group_greedy (.seq (.char '.') (.rep false 1 .any))
    (s := ⟨true, p.path, []⟩) rfl 1 p.stem_ne (fun a ha => p.line a (List.mem_append_left _ ha))
    (fun i caps hlt hle => Regex.ways_seq_char_of_ne _ fun hdot => ?_)
    (by rw [Regex.ways_seq_char]; exact hone _)
  · obtain ⟨m, ms, hm⟩ := List.exists_cons_of_ne_nil (hone [(1, p.stem)])
    rw [Regex.ways_seq_char, hm] at hways
    have hsearch : stemRegex.search p.path = some m := Regex.search_of_start hways
    have hcaps : m.caps = [(1, p.stem)] := Regex.caps_of_mem_rep_any (hm ▸ List.mem_cons_self)
    show "test/".toList ++ Regex.str (stemRegex.search p.path) 1 ++ unitTestSuffix = _
    rw [hsearch, Regex.str, Option.bind_some, hcaps]; rfl
  · obtain ⟨k, rfl⟩ := Nat.exists_eq_add_of_lt hlt
    rw [Nat.add_assoc, List.drop_length_add_append, List.drop_succ_cons] at hdot
    exact p.extension_free.1 (List.mem_of_mem_drop (List.mem_of_mem_head? hdot))

theorem unitTestFilePath_path {u v : string} (hpath : p.path = u ++ '.' :: v) (hu : '.' ∉ u) :
    unitTestFilePath p.path = "test/".toList ++ (u ++ removeFirst ('.' :: v) ('.' :: v)) ++ unitTestSuffix := by
  have hext : removeShortestPrefix "*.".toList (u ++ '.' :: v) = v := Shell.removeShortestPrefix_star rfl hu
  show "test/".toList ++ removeFirst (fileExt p.path) p.path ++ unitTestSuffix = _
  rw [hpath, fileExt, hext, Shell.removeFirst_append rfl hu]

theorem testFilePath_path : testFilePath p.path =
    if unitTestSuffix <:+ p.path then p.path else removeLongestSuffix ".*".toList p.path ++ unitTestSuffix := by
  have hprefix : ¬ fit "test/*".toList p.path := fun hfit =>
    p.outside ((Shell.fit_append_star (w := "test/".toList) (forall_mem_of_all (by decide)) _).1 hfit)
  have hsuffix : fit ('*' :: unitTestSuffix) p.path ↔ unitTestSuffix <:+ p.path :=
    Shell.fit_star_plain (forall_mem_of_all (by decide)) _
  rw [testFilePath, if_neg hprefix]
  by_cases h : unitTestSuffix <:+ p.path
  · rw [if_pos h, if_pos (hsuffix.2 h)]
  · rw [if_neg h, if_neg (mt hsuffix.1 h)]

theorem testFilePath_suffix : unitTestSuffix <:+ testFilePath p.path := by
  rw [testFilePath_path]
  split_ifs with h
  exacts [h, List.suffix_append _ _]

theorem eq_of_append_cons_eq {d : Char} {u v u' v' : string} (hv : d ∉ v) (hv' : d ∉ v')
    (h : u ++ d :: v = u' ++ d :: v') : u = u' := by
  have hnil : ∀ {v w v'}, d ∉ v → d :: v = w ++ d :: v' → w = [] := by
    intro v w v' hv heq
    cases w with
    | nil => rfl
    | cons c w =>
      rw [(List.cons.inj heq).2] at hv
      exact absurd (List.mem_append_right w List.mem_cons_self) hv
  rcases List.append_eq_append_iff.1 h with ⟨w, rfl, hw⟩ | ⟨w, rfl, hw⟩
  · rw [hnil hv hw, List.append_nil]
  · rw [hnil hv' hw, List.append_nil]

theorem exists_base (x : string) : ∃ dir base, "test/".toList ++ x = dir ++ '/' :: base ∧ '/' ∉ base :=
  Paths.exists_last_name (by simp)

theorem components_suffix {path dir base : string} (rest : string) (hpath : path = dir ++ '/' :: base)
    (hbase : '/' ∉ base) (hrest : '/' ∉ rest) :
    components (path ++ rest ++ unitTestSuffix) = components dir ++ [base ++ rest ++ unitTestSuffix] := by
  have hname : '/' ∉ base ++ rest ++ unitTestSuffix := by
    rw [List.mem_append, List.mem_append]
    rintro ((h | h) | h)
    exacts [hbase h, hrest h, absurd h (by decide)]
  have hstep : Paths.isStep (base ++ rest ++ unitTestSuffix) :=
    Paths.isStep_of_length (by rw [List.length_append]; exact Nat.le_add_left_of_le (by decide))
  rw [hpath, List.append_assoc dir, List.append_assoc dir, List.cons_append, List.cons_append,
    Paths.components_append_cons, Paths.components_of_name hname hstep]

/-- What is left behind the stem makes another name. -/
theorem eq_nil_of_sameFile {x rest : string} (hrest : '/' ∉ rest)
    (h : SameFile ("test/".toList ++ x ++ unitTestSuffix) ("test/".toList ++ (x ++ rest) ++ unitTestSuffix)) :
    rest = [] := by
  obtain ⟨dir, base, hpath, hbase⟩ := exists_base x
  have heq := Paths.sameFile_iff.1 h
  have hleft := components_suffix [] hpath hbase List.not_mem_nil
  rw [List.append_nil, List.append_nil] at hleft
  rw [← List.append_assoc, components_suffix rest hpath hbase hrest, hleft] at heq
  have hname := (List.append_inj' heq rfl).2
  have hlen := congrArg List.length (List.singleton_inj.1 hname)
  simp only [List.length_append] at hlen
  exact List.length_eq_zero_iff.1 (by omega)

/-- An earlier dot than the last does not give the same file. -/
theorem not_sameFile_of_dot {u v : string} (hstem : p.stem = u ++ '.' :: v) :
    ¬ SameFile ("test/".toList ++ u ++ unitTestSuffix) p.testFile := by
  intro h
  by_cases hv : '/' ∈ v
  · -- the dot is in the name of a directory
    obtain ⟨v, base', rfl, hbase'⟩ := Paths.exists_last_name hv
    obtain ⟨dir, base, hpath, hbase⟩ := exists_base u
    have hpath' : "test/".toList ++ p.stem = (dir ++ '/' :: (base ++ '.' :: v)) ++ '/' :: base' := by
      rw [hstem, ← List.append_assoc, hpath]; simp
    have hleft := components_suffix [] hpath hbase List.not_mem_nil
    have hright := components_suffix [] hpath' hbase' List.not_mem_nil
    rw [List.append_nil, List.append_nil] at hleft hright
    have heq := Paths.sameFile_iff.1 h
    rw [SourcePath.testFile_eq, hleft, hright, Paths.components_append_cons] at heq
    obtain ⟨hdir, hname⟩ := List.append_inj' heq rfl
    have hnil : components (base ++ '.' :: v) = [] := by
      have hlen := congrArg List.length hdir
      rw [List.length_append] at hlen
      exact List.length_eq_zero_iff.1 (by omega)
    have hsame : base = base' := List.append_cancel_right (List.singleton_inj.1 hname)
    have hne : base ≠ [] := by
      rintro rfl
      refine p.stem_last ?_
      rw [hstem, ← hsame, ← List.cons_append, ← List.append_assoc, List.getLast?_concat]
    have hdot : '/' ∉ base ++ ['.'] := fun hmem => (List.mem_append.1 hmem).elim hbase (by decide)
    have hlen : 2 ≤ (base ++ ['.']).length := by
      have := List.length_pos_iff.2 hne
      rw [List.length_append, List.length_singleton]; omega
    rw [List.append_cons] at hnil
    exact Paths.components_ne_nil hdot hlen v hnil
  · rw [SourcePath.testFile_eq, hstem] at h
    refine List.cons_ne_nil _ _ (eq_nil_of_sameFile ?_ h)
    exact fun hmem => (List.mem_cons.1 hmem).elim (by decide) hv

/-- Nor does a source that is taken for a test file. -/
theorem not_sameFile_of_suffix (h : unitTestSuffix <:+ p.path) :
    ¬ SameFile ("test/".toList ++ p.path) p.testFile := by
  obtain ⟨x, hx⟩ := h
  have hstem : x ++ "_unittest".toList = p.stem := by
    refine eq_of_append_cons_eq (d := '.') (v := "cc".toList) (by decide) p.extension_free.1 ?_
    rw [List.append_assoc]; exact hx
  intro h
  rw [SourcePath.testFile_eq, ← hstem, ← hx, ← List.append_assoc] at h
  exact absurd (eq_nil_of_sameFile (by decide) h) (by decide)

end

/-! ### When the paths agree -/

section
variable {rootDir : string} {p : SourcePath}

theorem geneUnitTestFileNames_singleton {isFile : string → Bool} {expand : string → List string} {src : string}
    (h : isFile (rootDir ++ '/' :: src)) : geneUnitTestFileNames isFile expand rootDir [src] =
      some ((words (rootDir ++ "/test/".toList ++ testFilePath src)).flatMap expand) := by
  rw [geneUnitTestFileNames, h, Bool.not_true, if_neg Bool.false_ne_true, geneUnitTestFileNames,
    Option.map_some, List.append_nil]

theorem testFilePath_of_dot (hsuffix : ¬ unitTestSuffix <:+ p.path) (hdot : '.' ∉ p.stem) :
    "test/".toList ++ testFilePath p.path = p.testFile := by
  have hlong : removeLongestSuffix ".*".toList p.path = p.stem := Shell.removeLongestSuffix_star rfl hdot
  rw [testFilePath_path, if_neg hsuffix, hlong, ← List.append_assoc, SourcePath.testFile_eq]

theorem word_eq (rootDir x : string) :
    rootDir ++ "/test/".toList ++ x = rootDir ++ '/' :: ("test/".toList ++ x) := by
  simp

theorem dot_of_mem_testFile (hdot : '.' ∉ p.stem) : ∀ pat ∈ p.testFile.splitOn '/', '.' ∉ pat.take 2 := by
  obtain ⟨dir, base, hpath, hbase⟩ := exists_base p.stem
  have hfree : '.' ∉ dir ++ '/' :: base := by
    rw [← hpath, List.mem_append]
    exact fun hmem => hmem.elim (by decide) hdot
  have hname : '/' ∉ base ++ unitTestSuffix := by
    rw [List.mem_append]
    exact fun hmem => hmem.elim hbase (by decide)
  rw [SourcePath.testFile_eq, hpath, List.append_assoc, List.cons_append, List.splitOn_append_cons_self,
    List.splitOn_eq_singleton hname]
  intro pat hpat hmem
  rcases List.mem_append.1 hpat with hpat | hpat
  · have hdir := (Shell.mem_splitOnP pat hpat '.' (List.mem_of_mem_take hmem)).1
    exact hfree (List.mem_append_left _ hdir)
  · rw [List.mem_singleton.1 hpat, List.take_append, List.mem_append] at hmem
    rcases hmem with hmem | hmem
    · exact hfree (List.mem_append_right _ (List.mem_cons_of_mem _ (List.mem_of_mem_take hmem)))
    · have hsub := (List.take_sublist_take_left (l := unitTestSuffix) (Nat.sub_le 2 base.length)).subset hmem
      exact absurd hsub (by decide)

theorem Conventional.agree (h : Conventional rootDir p) : Agree rootDir p.path := by
  intro isFile expand hfile hexpand
  have hwords : words (rootDir ++ '/' :: p.testFile) = [rootDir ++ '/' :: p.testFile] :=
    Shell.words_of_free (by simp) h.free
  have hext : removeFirst ('.' :: p.extension) ('.' :: p.extension) = [] :=
    (Shell.removeFirst_eq_nil_iff (List.cons_ne_nil _ _)).2 ((Shell.fit_cons rfl _ _).2 ⟨p.extension, rfl, h.extension⟩)
  refine ⟨p.testFile, ?_, ?_, ?_⟩
  · rw [geneUnitTestFileNames_singleton hfile, word_eq, testFilePath_of_dot h.suffix h.dot, hwords,
      List.flatMap_singleton, hexpand.eq_singleton h.self]
  · rw [geneGtestFilePath_path]
    exact Paths.sameFile_iff.2 rfl
  · rw [unitTestFilePath_path p rfl h.dot, hext, List.append_nil]
    exact Paths.sameFile_iff.2 rfl

/-- What the paths say where the shell puts in no file names. -/
theorem Agree.plain (h : Agree rootDir p.path) :
    (∀ c ∈ rootDir ++ "/test/".toList ++ testFilePath p.path, isBlank c = false) ∧
      SameFile ("test/".toList ++ testFilePath p.path) p.testFile ∧
      SameFile ("test/".toList ++ testFilePath p.path) (unitTestFilePath p.path) := by
  obtain ⟨compiled, hgene, hcpp, hsh⟩ := h (fun _ => true) (fun word => [word]) rfl Paths.fileNames_singleton
  rw [geneUnitTestFileNames_singleton rfl, List.flatMap_singleton'] at hgene
  have hwords := Option.some.inj hgene
  have hroot : ∀ c ∈ rootDir ++ ['/'], isBlank c = false := fun c hc =>
    Shell.isBlank_of_mem_words (hwords ▸ List.mem_singleton_self _) c (by
      rw [List.append_cons]; exact List.mem_append_left _ hc)
  obtain ⟨x, hx⟩ := testFilePath_suffix p
  have hword : rootDir ++ "/test/".toList ++ testFilePath p.path =
      (rootDir ++ ['/']) ++ ("test/".toList ++ x) ++ unitTestSuffix := by
    rw [← hx]; simp
  have hfree : ∀ c ∈ rootDir ++ "/test/".toList ++ testFilePath p.path, isBlank c = false := by
    have hbetween := Shell.isBlank_of_words_eq ⟨'/', by simp, rfl⟩ ⟨'c', by decide, rfl⟩ (hword ▸ hwords)
    rw [hword]
    intro c hc
    rcases List.mem_append.1 hc with hc | hc
    · exact (List.mem_append.1 hc).elim (hroot c) (hbetween c)
    · have hsuffix : ∀ c ∈ unitTestSuffix, isBlank c = false := forall_mem_of_all (by decide)
      exact hsuffix c hc
  rw [Shell.words_of_free (by simp) hfree] at hwords
  have hcompiled : compiled = "test/".toList ++ testFilePath p.path := by
    have heq := List.singleton_inj.1 hwords
    rw [List.append_assoc] at heq
    exact (List.cons.inj (List.append_cancel_left heq)).2.symm
  rw [hcompiled, geneGtestFilePath_path] at hcpp
  rw [hcompiled] at hsh
  exact ⟨hfree, hcpp, hsh⟩

theorem Agree.suffix (h : Agree rootDir p.path) : ¬ unitTestSuffix <:+ p.path := by
  intro hsuf
  have hcpp := h.plain.2.1
  rw [testFilePath_path, if_pos hsuf] at hcpp
  exact not_sameFile_of_suffix p hsuf hcpp

theorem Agree.dot (h : Agree rootDir p.path) : '.' ∉ p.stem := by
  intro hmem
  obtain ⟨u, v, hstem, hu⟩ := List.eq_append_cons_of_mem hmem
  have hpath : p.path = u ++ '.' :: (v ++ '.' :: p.extension) := by
    rw [SourcePath.path, hstem]; simp
  have hlong : removeLongestSuffix ".*".toList p.path = u := by
    rw [hpath]; exact Shell.removeLongestSuffix_star rfl hu
  have hcpp := h.plain.2.1
  rw [testFilePath_path, if_neg h.suffix, hlong, ← List.append_assoc] at hcpp
  exact not_sameFile_of_dot p hstem hcpp

/-- The three scripts mean the same file exactly for a conventional path. -/
theorem agree_iff : Agree rootDir p.path ↔ Conventional rootDir p := by
  refine ⟨fun h => ?_, Conventional.agree⟩
  obtain ⟨hfree, -, hsh⟩ := h.plain
  have htest := testFilePath_of_dot h.suffix h.dot
  rw [word_eq, htest] at hfree
  refine ⟨h.dot, h.suffix, ?_, hfree, fun path hnames => ?_⟩
  · have hrest : '/' ∉ removeFirst ('.' :: p.extension) ('.' :: p.extension) := fun hmem =>
      (List.mem_cons.1 ((Shell.removeFirst_sublist _ _).subset hmem)).elim (by decide) p.extension_free.2
    rw [htest, unitTestFilePath_path p rfl h.dot] at hsh
    have hfit := (Shell.removeFirst_eq_nil_iff (List.cons_ne_nil _ _)).1 (eq_nil_of_sameFile hrest hsh)
    obtain ⟨rest, heq, hfit⟩ := (Shell.fit_cons rfl _ _).1 hfit
    rwa [← (List.cons.inj heq).2] at hfit
  · -- a state of the files in which the word is replaced
    obtain ⟨compiled, hgene, hsame, -⟩ := h (fun _ => true) _ rfl (Paths.fileNames_replace hnames)
    rw [geneUnitTestFileNames_singleton rfl, word_eq, htest, Shell.words_of_free (by simp) hfree,
      List.flatMap_singleton, if_pos rfl] at hgene
    have hpath : path = rootDir ++ '/' :: compiled := List.singleton_inj.1 (Option.some.inj hgene)
    rw [geneGtestFilePath_path] at hsame
    rw [hpath] at hnames ⊢
    rw [hnames.eq_of_sameFile (dot_of_mem_testFile h.dot) hsame]

end

def pipePath : SourcePath where
  stem := "utils/pipe/Pipe".toList
  extension := "h".toList
  stem_ne := by decide
  stem_last := by decide
  stem_head := by decide
  extension_ne := by decide
  extension_free := by decide
  outside := by decide
  line := forall_mem_of_all (by decide)

theorem agree_iff_pipe : Agree "scripts/..".toList pipePath.path := by
  refine agree_iff.2 ⟨by decide, by decide, by decide, forall_mem_of_all (by decide), fun path hnames => ?_⟩
  have hpattern : Paths.isPattern ("scripts/..".toList ++ '/' :: pipePath.testFile) = false := by decide
  exact absurd hnames.1 (by rw [hpattern]; exact Bool.false_ne_true)

def versionPath : SourcePath := { pipePath with
  stem := "utils/pipe-1.2/Pipe".toList
  stem_ne := by decide
  stem_last := by decide
  stem_head := by decide
  outside := by decide
  line := forall_mem_of_all (by decide) }

theorem version_lost : ¬ ∀ (rootDir : string) (p : SourcePath), Agree rootDir p.path := fun h =>
  (h "scripts/..".toList versionPath).dot (by decide)

end CWorkspace.Stub
