import CWorkspace.Stub.Keeps
import CWorkspace.Stub.Params

/-!
# The parameter count of the shell script

`_gene_mock_stub` (`cpp/scripts/gene-gtest-stub.sh`) lets `echo` print the signature without the name and counts
the lines that have a comma, of which there is one at most as long as `echo` prints one line; without commas it
looks at what `sed` leaves of the parentheses. `counts_agree_iff` says for which signatures that is the count of
`countMethodParams`.
-/

namespace CWorkspace.Stub
open Shell (removeFirst words)

/-! ### The commands -/

def isEchoOption : string → Bool
  | '-' :: c :: cs => (c :: cs).all fun c => c = 'n' || c = 'e' || c = 'E'
  | _ => false

/-- What `echo` prints before its newline; `escapes` puts characters in for the backslashes, as the option `-e`
asks for unless `-E` comes after it. -/
def echo (escapes : string → string) (args : List string) : string :=
  let options := (args.takeWhile isEchoOption).flatten
  let text := [' '].intercalate (args.dropWhile isEchoOption)
  if (options.filter fun c => c = 'e' || c = 'E').getLast? = some 'e' then escapes text else text

def textLines (text : string) : List string := text.splitOn '\n'

/-- `grep -c ','` -/
def linesWithComma (text : string) : ℕ := (textLines text).countP fun line => decide (',' ∈ line)

def splitLast (c : Char) : string → Option (string × string)
  | [] => none
  | d :: s =>
    match splitLast c s with
    | some (before, after) => some (d :: before, after)
    | none => if d = c then some ([], s) else none

/-- `s/.*\((.*)\)/\1/` on one line: a match goes to the last `)` with a `(` before it, and begins its group at
the last of these. -/
def unwrap (line : string) : string :=
  match splitLast ')' line with
  | none => line
  | some (before, after) =>
    match splitLast '(' before with
    | none => line
    | some (_, inner) => inner ++ after

/-- The output of `sed`, put in for the command. -/
def sedParams (text : string) : string := (['\n'].intercalate ((textLines text).map unwrap)).rdropWhile (· = '\n')

/-! ### The count -/

variable (sh : Commands) (escapes : string → string) (fs : FileSystem)

/-- `echo $methodSignatureWithoutName` -/
def Commands.printed (methodSignatureWithoutName : string) : string :=
  echo escapes (sh.split fs methodSignatureWithoutName)

/-- `$paramCount`, if the method is not left out; a name begins with neither `#` nor `%`. -/
def Commands.paramCount (methodName methodSignature : string) : Option ℕ :=
  let methodSignatureWithoutName := removeFirst methodName methodSignature
  if "()".toList <+: methodSignatureWithoutName then none
  else
    let paramCount := linesWithComma (sh.printed escapes fs methodSignatureWithoutName)
    if paramCount = 0 then
      let paramSignature := sedParams (sh.printed escapes fs methodSignatureWithoutName)
      let paramSignature := removeFirst " ".toList paramSignature
      if paramSignature = "void".toList ∨ paramSignature = [] then some 0 else some 1
    else some (paramCount + 1)

theorem splitLast_eq_none {c : Char} {s : string} (h : c ∉ s) : splitLast c s = none := by
  induction s with
  | nil => rfl
  | cons d s ih =>
    rw [List.mem_cons, not_or] at h
    rw [splitLast, ih h.2]
    exact if_neg (Ne.symm h.1)

theorem splitLast_append {c : Char} {before after : string} (h : c ∉ after) :
    splitLast c (before ++ c :: after) = some (before, after) := by
  induction before with
  | nil =>
    rw [List.nil_append, splitLast, splitLast_eq_none h]
    exact if_pos rfl
  | cons d before ih => rw [List.cons_append, splitLast, ih]

theorem exists_last {c : Char} {s : string} (h : c ∈ s) : ∃ before after, s = before ++ c :: after ∧ c ∉ after := by
  obtain ⟨after, before, hs, hafter⟩ := List.eq_append_cons_of_mem (List.mem_reverse.2 h)
  refine ⟨before.reverse, after.reverse, ?_, by simpa using hafter⟩
  rw [← s.reverse_reverse, hs]
  simp

/-- What is in the last parentheses of a line and behind them; all of it if there are none. -/
inductive LeftOf : string → string → Prop
  | parens (before : string) {inner after : string} (hinner : '(' ∉ inner) (hafter : ')' ∉ after) :
    LeftOf (before ++ '(' :: (inner ++ ')' :: after)) (inner ++ after)
  | none {line : string} (h : ∀ before rest, line = before ++ '(' :: rest → ')' ∉ rest) : LeftOf line line

theorem unwrap_parens (before : string) {inner after : string} (hinner : '(' ∉ inner) (hafter : ')' ∉ after) :
    unwrap (before ++ '(' :: (inner ++ ')' :: after)) = inner ++ after := by
  rw [← List.cons_append, ← List.append_assoc, unwrap, splitLast_append hafter]
  dsimp only
  rw [splitLast_append hinner]

theorem unwrap_of_none {line : string} (h : ∀ before rest, line = before ++ '(' :: rest → ')' ∉ rest) :
    unwrap line = line := by
  by_cases hclose : ')' ∈ line
  · obtain ⟨before, after, rfl, hafter⟩ := exists_last hclose
    have hopen : '(' ∉ before := by
      intro hmem
      obtain ⟨u, v, rfl⟩ := List.append_of_mem hmem
      exact h u (v ++ ')' :: after) (by simp) (by simp)
    rw [unwrap, splitLast_append hafter]
    dsimp only
    rw [splitLast_eq_none hopen]
  · rw [unwrap, splitLast_eq_none hclose]

theorem leftOf_iff {line left : string} : LeftOf line left ↔ unwrap line = left := by
  constructor
  · rintro (⟨before, hinner, hafter⟩ | h)
    exacts [unwrap_parens before hinner hafter, unwrap_of_none h]
  · rintro rfl
    by_cases h : ∀ before rest, line = before ++ '(' :: rest → ')' ∉ rest
    · rw [unwrap_of_none h]
      exact .none h
    · push Not at h
      obtain ⟨before, rest, rfl, hclose⟩ := h
      obtain ⟨inner, after, rfl, hafter⟩ := exists_last hclose
      obtain ⟨before', inner', heq, hinner⟩ : ∃ u v, before ++ '(' :: inner = u ++ '(' :: v ∧ '(' ∉ v :=
        exists_last (by simp)
      rw [← List.cons_append, ← List.append_assoc, heq, List.append_assoc, List.cons_append,
        unwrap_parens before' hinner hafter]
      exact .parens before' hinner hafter

theorem removeFirst_space_cons (x : string) : removeFirst [' '] (' ' :: x) = x := by
  have hplain : ∀ c ∈ [' '], Shell.isPlain c := forall_mem_of_all (by decide)
  have hfind : (List.range ((' ' :: x).length + 1)).reverse.find?
      (fun n => Shell.fit [' '] ((' ' :: x).take n)) = some 1 := by
    cases h : (List.range ((' ' :: x).length + 1)).reverse.find?
        (fun n => Shell.fit [' '] ((' ' :: x).take n)) with
    | none => exact absurd ((Shell.fit_plain hplain _).2 rfl) (List.find?_eq_none.1 h 1 (by simp))
    | some n =>
      have hsome := List.find?_some (p := fun n => Shell.fit [' '] ((' ' :: x).take n)) h
      have hfit := (Shell.fit_plain hplain _).1 hsome
      have hn := List.mem_range.1 (List.mem_reverse.1 (List.mem_of_find?_eq_some h))
      have hlen := congrArg List.length hfit
      rw [List.length_take_of_le (Nat.le_of_lt_succ hn)] at hlen
      exact congrArg some hlen
  rw [removeFirst, hfind]
  rfl

theorem removeFirst_space (x : string) : removeFirst " ".toList x = x.erase ' ' := by
  show removeFirst [' '] x = _
  by_cases h : ' ' ∈ x
  · obtain ⟨u, v, rfl, hu⟩ := List.eq_append_cons_of_mem h
    rw [Shell.removeFirst_append (by decide) hu, removeFirst_space_cons, List.erase_append_right _ hu,
      List.erase_cons_head]
  · have hend := Shell.removeFirst_append (v := []) (by decide) h []
    rw [List.append_nil] at hend
    rw [hend, List.erase_of_not_mem h]
    exact List.append_nil x

theorem textLines_of_line {text : string} (h : '\n' ∉ text) : textLines text = [text] :=
  List.splitOnP_eq_singleton fun _ hc => beq_eq_false_iff_ne.2 fun heq => h (heq ▸ hc)

theorem sedParams_of_line {text : string} (h : '\n' ∉ text) (h' : '\n' ∉ unwrap text) :
    sedParams text = unwrap text := by
  rw [sedParams, textLines_of_line h, List.map_singleton, List.intercalate_singleton, List.rdropWhile_eq_self_iff]
  intro hne hlast
  exact h' (of_decide_eq_true hlast ▸ List.getLast_mem hne)

/-- Nothing is left, or `void`, up to one space. -/
def LeavesVoid (text : string) : Prop :=
  removeFirst " ".toList (sedParams text) = "void".toList ∨ removeFirst " ".toList (sedParams text) = []

instance (text : string) : Decidable (LeavesVoid text) := inferInstanceAs (Decidable (_ ∨ _))

/-- In the last parentheses and behind them there is nothing, or `void`, up to one space. -/
def VoidLast (line : string) : Prop :=
  ∃ left, LeftOf line left ∧ (left.erase ' ' = "void".toList ∨ left.erase ' ' = [])

theorem leavesVoid_iff {line : string} (h : '\n' ∉ line) : LeavesVoid line ↔ VoidLast line := by
  have hleft : '\n' ∉ unwrap line := by
    have hof : LeftOf line (unwrap line) := leftOf_iff.2 rfl
    generalize unwrap line = left at hof
    intro hmem
    rcases hof with ⟨before, hinner, hafter⟩ | hnone
    · rcases List.mem_append.1 hmem with hmem | hmem <;> simp [hmem] at h
    · exact h hmem
  rw [LeavesVoid, sedParams_of_line h hleft, removeFirst_space]
  constructor
  · exact fun hvoid => ⟨_, leftOf_iff.2 rfl, hvoid⟩
  · rintro ⟨left, hof, hvoid⟩
    rwa [leftOf_iff.1 hof]

theorem linesWithComma_of_line {line : string} (h : '\n' ∉ line) :
    linesWithComma line = if ',' ∈ line then 1 else 0 := by
  rw [linesWithComma, textLines_of_line h, List.countP_singleton]
  simp only [decide_eq_true_eq]

theorem echo_of_no_option (escapes : string → string) {args : List string} (h : ∀ arg ∈ args.head?, isEchoOption arg = false) :
    echo escapes args = [' '].intercalate args := by
  cases args with
  | nil => rfl
  | cons arg args =>
    rw [echo, List.takeWhile_cons, List.dropWhile_cons, h arg rfl]
    rfl

/-! ### The counts -/

section
variable {sh escapes fs} {methodName methodSignature : string} {n : ℕ}

theorem Commands.paramCount_eq (methodName methodSignature : string) :
    sh.paramCount escapes fs methodName methodSignature =
      if "()".toList <+: removeFirst methodName methodSignature then none
      else if linesWithComma (sh.printed escapes fs (removeFirst methodName methodSignature)) = 0 then
        if LeavesVoid (sh.printed escapes fs (removeFirst methodName methodSignature)) then some 0 else some 1
      else some (linesWithComma (sh.printed escapes fs (removeFirst methodName methodSignature)) + 1) := rfl

theorem succ_eq_countMethodParams_iff (hline : ∀ c ∈ methodSignature, Regex.isAny c) (hn : n ≠ 0) :
    n + 1 = countMethodParams methodSignature ↔
      methodSignature.count ',' % 2 ^ 32 = n ∧ n < 2 ^ 32 - 1 := by
  by_cases hcommas : methodSignature.count ',' % 2 ^ 32 = 0
  · obtain ⟨hblank, hnot⟩ := countMethodParams_of_no_commas hcommas hline
    refine iff_of_false ?_ fun h => hn (h.1.symm.trans hcommas)
    by_cases hparens : HasBlankParens methodSignature
    · rw [hblank hparens]; omega
    · rw [hnot hparens]; omega
  · rw [countMethodParams_of_commas hcommas]
    omega

theorem void_eq_countMethodParams_iff (hline : ∀ c ∈ methodSignature, Regex.isAny c) {p : Prop} [Decidable p] :
    (if p then 0 else 1) = countMethodParams methodSignature ↔
      methodSignature.count ',' % 2 ^ 32 = 0 ∧ (p ↔ HasBlankParens methodSignature) ∨
        methodSignature.count ',' % 2 ^ 32 = 2 ^ 32 - 1 ∧ p := by
  by_cases hcommas : methodSignature.count ',' % 2 ^ 32 = 0
  · obtain ⟨hblank, hnot⟩ := countMethodParams_of_no_commas hcommas hline
    rw [hcommas]
    by_cases hparens : HasBlankParens methodSignature
    · rw [hblank hparens]
      by_cases hp : p <;> simp [hp, hparens]
    · rw [hnot hparens]
      by_cases hp : p <;> simp [hp, hparens]
  · rw [countMethodParams_of_commas hcommas]
    have hlt := Nat.mod_lt (methodSignature.count ',') (show 0 < 2 ^ 32 by decide)
    by_cases hp : p
    · rw [if_pos hp]
      simp only [hcommas, hp, false_and, false_or, and_true]
      omega
    · rw [if_neg hp]
      simp only [hcommas, hp, false_and, and_false, or_false, iff_false]
      omega

variable (sh escapes fs) (methodName methodSignature) in
/-- Where the script makes a count, it is that of the generator. -/
def Commands.CountsAgree : Prop :=
  ∀ n, sh.paramCount escapes fs methodName methodSignature = some n → n = countMethodParams methodSignature

theorem Commands.countsAgree_iff (hline : ∀ c ∈ methodSignature, Regex.isAny c) :
    sh.CountsAgree escapes fs methodName methodSignature ↔
      "()".toList <+: removeFirst methodName methodSignature ∨
        let text := sh.printed escapes fs (removeFirst methodName methodSignature)
        linesWithComma text ≠ 0 ∧ methodSignature.count ',' % 2 ^ 32 = linesWithComma text ∧
            linesWithComma text < 2 ^ 32 - 1 ∨
          linesWithComma text = 0 ∧
            (methodSignature.count ',' % 2 ^ 32 = 0 ∧ (LeavesVoid text ↔ HasBlankParens methodSignature) ∨
              methodSignature.count ',' % 2 ^ 32 = 2 ^ 32 - 1 ∧ LeavesVoid text) := by
  rw [Commands.CountsAgree, Commands.paramCount_eq]
  by_cases hskip : "()".toList <+: removeFirst methodName methodSignature
  · rw [if_pos hskip]
    exact iff_of_true (fun n hn => by cases hn) (.inl hskip)
  · rw [if_neg hskip]
    generalize sh.printed escapes fs (removeFirst methodName methodSignature) = text
    by_cases hcommas : linesWithComma text = 0
    · rw [if_pos hcommas, ← apply_ite some]
      simp only [Option.some.injEq, forall_eq', void_eq_countMethodParams_iff hline, hskip, hcommas, false_or,
        ne_eq, not_true_eq_false, false_and, true_and]
    · rw [if_neg hcommas]
      simp only [Option.some.injEq, forall_eq', succ_eq_countMethodParams_iff hline hcommas, hskip, hcommas,
        false_or, ne_eq, not_false_eq_true, false_and, true_and, or_false]

def LineAgrees (line methodSignature : string) : Prop :=
  ',' ∈ line ∧ methodSignature.count ',' % 2 ^ 32 = 1 ∨
    ',' ∉ line ∧
      (methodSignature.count ',' % 2 ^ 32 = 0 ∧ (VoidLast line ↔ HasBlankParens methodSignature) ∨
        methodSignature.count ',' % 2 ^ 32 = 2 ^ 32 - 1 ∧ VoidLast line)

theorem Commands.countsAgree_iff_line (hline : ∀ c ∈ methodSignature, Regex.isAny c)
    (hwords : ∀ word ∈ words (removeFirst methodName methodSignature), sh.expand fs word = [word])
    (hoption : ∀ word ∈ (words (removeFirst methodName methodSignature)).head?, isEchoOption word = false) :
    sh.CountsAgree escapes fs methodName methodSignature ↔
      "()".toList <+: removeFirst methodName methodSignature ∨
        LineAgrees ([' '].intercalate (words (removeFirst methodName methodSignature))) methodSignature := by
  have hprinted : sh.printed escapes fs (removeFirst methodName methodSignature) =
      [' '].intercalate (words (removeFirst methodName methodSignature)) := by
    rw [Commands.printed, Commands.split, List.flatMap_congr hwords, List.flatMap_singleton',
      echo_of_no_option escapes hoption]
  have hnl : '\n' ∉ [' '].intercalate (words (removeFirst methodName methodSignature)) :=
    Shell.not_mem_intercalate (by decide) fun word hword hmem => by cases Shell.isBlank_of_mem_words hword _ hmem
  rw [Commands.countsAgree_iff hline, hprinted]
  generalize [' '].intercalate (words (removeFirst methodName methodSignature)) = line at hnl
  dsimp only
  rw [linesWithComma_of_line hnl, leavesVoid_iff hnl, LineAgrees]
  by_cases hcomma : ',' ∈ line
  · simp [hcomma]
  · simp [hcomma]

variable (sh escapes fs) in
/-- The counts are the same for a signature that is not left out exactly if, where `echo` prints commas, there
are as many of them as lines that have one, and elsewhere `sed` leaves nothing exactly where `()` is found.
Where no file names are put in, that is one comma, or none and `()` in the last parentheses and nowhere else. -/
theorem counts_agree_iff (methodName : string) (hline : ∀ c ∈ methodSignature, Regex.isAny c) :
    (sh.CountsAgree escapes fs methodName methodSignature ↔
      "()".toList <+: removeFirst methodName methodSignature ∨
        let text := sh.printed escapes fs (removeFirst methodName methodSignature)
        linesWithComma text ≠ 0 ∧ methodSignature.count ',' % 2 ^ 32 = linesWithComma text ∧
            linesWithComma text < 2 ^ 32 - 1 ∨
          linesWithComma text = 0 ∧
            (methodSignature.count ',' % 2 ^ 32 = 0 ∧ (LeavesVoid text ↔ HasBlankParens methodSignature) ∨
              methodSignature.count ',' % 2 ^ 32 = 2 ^ 32 - 1 ∧ LeavesVoid text)) ∧
    ((∀ word ∈ words (removeFirst methodName methodSignature), sh.expand fs word = [word]) →
      (∀ word ∈ (words (removeFirst methodName methodSignature)).head?, isEchoOption word = false) →
      (sh.CountsAgree escapes fs methodName methodSignature ↔
        "()".toList <+: removeFirst methodName methodSignature ∨
          LineAgrees ([' '].intercalate (words (removeFirst methodName methodSignature))) methodSignature)) :=
  ⟨Commands.countsAgree_iff hline, Commands.countsAgree_iff_line hline⟩

end

theorem counts_agree_iff_pair :
    pipeCommands.CountsAgree id (pipeFiles []) "f".toList "void f(int a, B b) const".toList ∧
    pipeCommands.CountsAgree id (pipeFiles []) "get".toList "int get(void)".toList := by
  have hpair : ∀ c ∈ "void f(int a, B b) const".toList, Regex.isAny c := forall_mem_of_all (by decide)
  have hget : ∀ c ∈ "int get(void)".toList, Regex.isAny c := forall_mem_of_all (by decide)
  have hline : [' '].intercalate (words (removeFirst "get".toList "int get(void)".toList)) = "int (void)".toList := by
    decide +kernel
  have hlast : VoidLast "int (void)".toList :=
    ⟨_, @LeftOf.parens "int ".toList "void".toList [] (by decide) (by decide), .inl rfl⟩
  have hparens : HasBlankParens "int get(void)".toList :=
    ⟨"int get".toList, 0, "void".toList, 0, [], by decide, .inl rfl, rfl⟩
  constructor
  · refine ((counts_agree_iff pipeCommands id (pipeFiles []) "f".toList hpair).2 (fun _ _ => rfl)
      (by decide +kernel)).2 (.inr (.inl ?_))
    decide +kernel
  · refine ((counts_agree_iff pipeCommands id (pipeFiles []) "get".toList hget).2 (fun _ _ => rfl)
      (by decide +kernel)).2 (.inr (.inr ?_))
    rw [hline]
    exact ⟨by decide, .inl ⟨by decide, iff_of_true hlast hparens⟩⟩

theorem counts_differ :
    pipeCommands.paramCount id (pipeFiles []) "f".toList "A f(B, C, D)".toList = some 2 ∧
      countMethodParams "A f(B, C, D)".toList = 3 ∧
    pipeCommands.paramCount id (pipeFiles []) "f".toList "A f() const".toList = some 1 ∧
      countMethodParams "A f() const".toList = 0 := by
  decide +kernel

end CWorkspace.Stub
