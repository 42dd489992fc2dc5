import CWorkspace.Stub.Main
import CWorkspace.Stub.Symbols

/-!
# The lines of one source file

`find_symbol_lines_in_ctags` takes every line in which the path of the source occurs anywhere, so a line of
another file is selected when its name, its path or the text of its source line contains that path
(`findSymbolLines_iff`).
-/

namespace CWorkspace.Stub

/-- The second field of a line of a ctags file, the path of the file the symbol is in. -/
def filePath (line : string) : Option string := (line.splitOn '\t')[1]?

def ctagsLines (fs : FileSystem) (ctagsFileName : string) : List string :=
  if !fs.opens ctagsFileName then [] else getLines (((fs.find ctagsFileName).bind fs.content).getD [])

theorem findSymbolLines_eq (fs : FileSystem) (ctagsFileName targetFilePath : string) :
    findSymbolLinesInCtags fs ctagsFileName targetFilePath =
      (ctagsLines fs ctagsFileName).filter (find targetFilePath · ≠ none) := by
  rw [findSymbolLinesInCtags, ctagsLines]
  split_ifs <;> rfl

theorem filter_eq_filter_iff {α : Type*} {p q : α → Bool} {l : List α} :
    l.filter p = l.filter q ↔ ∀ x ∈ l, p x = q x := by
  constructor
  · intro h x hx
    rw [Bool.eq_iff_iff]
    have hmem := congrArg (x ∈ ·) h
    simpa [hx] using hmem
  · exact fun h => List.filter_congr h

theorem infix_intercalate (sep : string) {part : string} {parts : List string} (h : part ∈ parts) :
    part <:+: sep.intercalate parts := by
  induction parts with
  | nil => exact absurd h List.not_mem_nil
  | cons first parts ih =>
    cases parts with
    | nil => rw [List.mem_singleton.1 h, List.intercalate_singleton]
    | cons second parts =>
      rw [List.intercalate_cons_cons]
      rcases List.mem_cons.1 h with rfl | h
      · exact ⟨[], _, by rw [List.nil_append, List.append_assoc]⟩
      · exact (ih h).trans (List.suffix_append _ _).isInfix

theorem infix_of_filePath {line path : string} (h : filePath line = some path) : path <:+: line := by
  have hin := infix_intercalate ['\t'] (List.mem_of_getElem? h)
  rwa [List.intercalate_splitOn] at hin

theorem method_of_file {lines : List string} {path name signature : string}
    (h : ∀ line ∈ lines, filePath line = some path) (hm : Method lines name signature) :
    ∃ line ∈ lines, filePath line = some path ∧ lineName line = name ∧ lineSignature line = signature := by
  obtain ⟨line, hfind, hsig⟩ := Option.map_eq_some_iff.1 hm
  have hmem : line ∈ lines := by
    have := List.mem_of_mem_tail (List.mem_of_find?_eq_some hfind)
    exact (List.mem_filter.1 this).1
  exact ⟨line, hmem, h line hmem, by simpa using List.find?_some hfind, hsig⟩

/-- The lines whose second field is the path are selected, in their order, and no others, so that every
method comes from one of them, exactly if the path is the second field of every line it occurs in. -/
theorem findSymbolLines_iff (fs : FileSystem) (ctagsFileName targetFilePath : string) :
    (findSymbolLinesInCtags fs ctagsFileName targetFilePath =
      (ctagsLines fs ctagsFileName).filter (filePath · = some targetFilePath) ∧
    ∀ name signature, Method (findSymbolLinesInCtags fs ctagsFileName targetFilePath) name signature →
      ∃ line ∈ ctagsLines fs ctagsFileName, filePath line = some targetFilePath ∧ lineName line = name ∧
        lineSignature line = signature) ↔
    ∀ line ∈ ctagsLines fs ctagsFileName, targetFilePath <:+: line → filePath line = some targetFilePath := by
  have hselect : findSymbolLinesInCtags fs ctagsFileName targetFilePath =
      (ctagsLines fs ctagsFileName).filter (filePath · = some targetFilePath) ↔
      ∀ line ∈ ctagsLines fs ctagsFileName, targetFilePath <:+: line →
        filePath line = some targetFilePath := by
    rw [findSymbolLines_eq, filter_eq_filter_iff]
    refine forall₂_congr fun line _ => ?_
    rw [Bool.eq_iff_iff, decide_eq_true_eq, decide_eq_true_eq, Ne, find_eq_none_iff, not_not]
    exact ⟨Iff.mp, fun h => ⟨h, infix_of_filePath⟩⟩
  rw [hselect]
  refine and_iff_left_of_imp fun h name signature hm => ?_
  rw [hselect.2 h] at hm
  obtain ⟨line, hline, hpath, hname⟩ := method_of_file
    (fun line hline => by simpa using (List.mem_filter.1 hline).2) hm
  exact ⟨line, (List.mem_filter.1 hline).1, hpath, hname⟩

def libTags : FileSystem where
  nodes := [.directory true true, .file "f\tlib/a.h\t/^  void f() \x7b \x7d$/;\"\tf\tclass:A\n".toList true true]
  entry d name := if d = 0 ∧ name = "tags".toList then some 1 else none
  root := 0
  cwd := 0
  entry_lt := by
    intro d name i h
    split_ifs at h
    obtain rfl := Option.some.inj h
    decide

set_option maxRecDepth 4000 in
theorem libTags_selects_other_file : ¬ ∀ (fs : FileSystem) (ctagsFileName targetFilePath : string),
    findSymbolLinesInCtags fs ctagsFileName targetFilePath =
      (ctagsLines fs ctagsFileName).filter (filePath · = some targetFilePath) := by
  intro h
  have hsame := h libTags "tags".toList "a.h".toList
  rw [findSymbolLines_eq] at hsame
  have hlines : ctagsLines libTags "tags".toList =
      ["f\tlib/a.h\t/^  void f() \x7b \x7d$/;\"\tf\tclass:A".toList] := by
    decide
  rw [hlines] at hsame
  exact absurd hsame (by decide)

end CWorkspace.Stub
