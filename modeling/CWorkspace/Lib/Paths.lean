import CWorkspace.Lib.Shell
import Mathlib.Data.List.Forall2

/-!
# Path names

A path leads from a directory to a file, one component after another; an empty component and `.` stay in the
directory. Two paths that do so with the same file in every file system have the same `components`. `Names`
says which file names the shell puts in for a word that is a pattern.
-/

namespace CWorkspace.Paths
open Shell (Item fit items)

/-- A component that leads to another file than the directory itself. -/
def isStep (name : List Char) : Bool := name ≠ [] && name ≠ ['.']

def components (path : List Char) : List (List Char) := (path.splitOn '/').filter isStep

/-- The file a path leads to from the directory `d`; `entry` is the file system. -/
def lookup {ν : Type} (entry : ν → List Char → Option ν) (d : ν) (path : List Char) : Option ν :=
  (path.splitOn '/').foldlM (fun d name => if isStep name then entry d name else some d) d

/-- The two paths lead to the same file, wherever they start. -/
def SameFile (p q : List Char) : Prop :=
  ∀ (ν : Type) (entry : ν → List Char → Option ν) (d : ν), lookup entry d p = lookup entry d q

theorem lookup_eq {ν : Type} (entry : ν → List Char → Option ν) (d : ν) (path : List Char) :
    lookup entry d path = (components path).foldlM entry d := by
  rw [lookup, components]
  generalize path.splitOn '/' = names
  induction names generalizing d with
  | nil => rfl
  | cons name names ih =>
    rw [List.foldlM_cons, List.filter_cons]
    split_ifs with h
    · rw [List.foldlM_cons]
      cases entry d name with
      | none => rfl
      | some d' => exact ih d'
    · exact ih d

theorem sameFile_iff {p q : List Char} : SameFile p q ↔ components p = components q := by
  constructor
  · intro h
    -- in this file system a file is the components on the way to it
    have hpath : ∀ names d : List (List Char),
        names.foldlM (fun d name => some (d ++ [name])) d = some (d ++ names) := by
      intro names
      induction names with
      | nil => intro d; rw [List.append_nil]; rfl
      | cons name names ih =>
        intro d
        rw [List.foldlM_cons, List.append_cons d name names]
        exact ih (d ++ [name])
    have heq := h (List (List Char)) (fun d name => some (d ++ [name])) []
    rw [lookup_eq, lookup_eq, hpath, hpath] at heq
    exact Option.some.inj heq
  · intro h ν entry d
    rw [lookup_eq, lookup_eq, h]

theorem components_append_cons (u v : List Char) : components (u ++ '/' :: v) = components u ++ components v := by
  rw [components, List.splitOn_append_cons_self, List.filter_append]; rfl

theorem components_of_name {name : List Char} (h : '/' ∉ name) (hstep : isStep name) : components name = [name] := by
  rw [components, List.splitOn_eq_singleton h, List.filter_singleton, hstep]; rfl

theorem isStep_of_length {name : List Char} (h : 2 ≤ name.length) : isStep name := by
  rw [isStep, Bool.and_eq_true, decide_eq_true_eq, decide_eq_true_eq]
  constructor <;> rintro rfl <;> exact absurd h (by decide)

theorem components_ne_nil {name : List Char} (h : '/' ∉ name) (hlen : 2 ≤ name.length) (rest : List Char) :
    components (name ++ rest) ≠ [] := by
  have hfirst : ∀ a, '/' ∉ a → components (name ++ a) = [name ++ a] := fun a ha =>
    components_of_name (fun hmem => (List.mem_append.1 hmem).elim h ha)
      (isStep_of_length (by rw [List.length_append]; omega))
  by_cases hmem : '/' ∈ rest
  · obtain ⟨a, b, rfl, ha⟩ := List.eq_append_cons_of_mem hmem
    rw [← List.append_assoc, components_append_cons, hfirst a ha]
    exact List.cons_ne_nil _ _
  · rw [hfirst rest hmem]
    exact List.cons_ne_nil _ _

theorem exists_last_name {path : List Char} (h : '/' ∈ path) :
    ∃ dir base, path = dir ++ '/' :: base ∧ '/' ∉ base := by
  induction path with
  | nil => exact absurd h List.not_mem_nil
  | cons c path ih =>
    by_cases hmem : '/' ∈ path
    · obtain ⟨dir, base, rfl, hbase⟩ := ih hmem
      exact ⟨c :: dir, base, rfl, hbase⟩
    · rcases List.mem_cons.1 h with rfl | h
      exacts [⟨[], path, rfl, hmem⟩, absurd h hmem]

theorem splitOn_injective {p q : List Char} (h : p.splitOn '/' = q.splitOn '/') : p = q := by
  have hjoin := congrArg ['/'].intercalate h
  rwa [List.intercalate_splitOn, List.intercalate_splitOn] at hjoin

/-! ### Patterns for file names -/

def isPattern (word : List Char) : Bool := word.any fun c => c = '*' || c = '?' || c = '['

def Item.isDot : Item → Bool
  | .char c => c = '.'
  | _ => false

/-- The name of a file that matches a component; a dot it begins with has to be there. -/
structure FitsName (pat name : List Char) : Prop where
  fit : fit pat name
  name_ne : name = [] → pat = []
  dot : name.head? = some '.' → (items pat).head?.any Item.isDot

/-- A path that may stand in the place of the word. -/
def Names (word path : List Char) : Prop :=
  isPattern word ∧ List.Forall₂ FitsName (word.splitOn '/') (path.splitOn '/')

/-- File names are put in for a pattern, unless there are none. -/
def FileNames (expand : List Char → List (List Char)) : Prop :=
  ∀ word, expand word = [word] ∨
    expand word ≠ [] ∧ (expand word).Nodup ∧ ∀ path ∈ expand word, Names word path

theorem fileNames_singleton : FileNames fun word => [word] := fun _ => .inl rfl

theorem fileNames_replace {word path : List Char} (h : Names word path) :
    FileNames fun w => if w = word then [path] else [w] := by
  intro w
  dsimp only
  split_ifs with heq
  · subst heq
    exact .inr ⟨List.cons_ne_nil _ _, List.pairwise_singleton _ _, fun r hr => List.mem_singleton.1 hr ▸ h⟩
  · exact .inl rfl

theorem FileNames.eq_singleton {expand : List Char → List (List Char)} (h : FileNames expand) {word : List Char}
    (hself : ∀ path, Names word path → path = word) : expand word = [word] := by
  rcases h word with heq | ⟨hne, hnodup, hnames⟩
  · exact heq
  · obtain ⟨path, rest, hcons⟩ := List.exists_cons_of_ne_nil hne
    rw [hcons] at hnodup hnames ⊢
    have hall : ∀ r ∈ path :: rest, r = word := fun r hr => hself r (hnames r hr)
    cases rest with
    | nil => rw [hall path List.mem_cons_self]
    | cons r rest =>
      refine absurd ?_ (List.nodup_cons.1 hnodup).1
      rw [hall path List.mem_cons_self, ← hall r (List.mem_cons_of_mem _ List.mem_cons_self)]
      exact List.mem_cons_self

/-- A pattern that begins with a dot has it among its first two characters: it may be escaped. -/
theorem mem_take_of_isDot {pat : List Char} (h : (items pat).head?.any Item.isDot) : '.' ∈ pat.take 2 := by
  cases pat with
  | nil => exact absurd h Bool.false_ne_true
  | cons c pat =>
    rw [items, List.length_cons, Shell.itemsFuel.eq_def] at h
    dsimp only at h
    split at h
    · exact absurd h Bool.false_ne_true
    · exact absurd h Bool.false_ne_true
    · obtain rfl := of_decide_eq_true h
      exact List.mem_cons_of_mem _ List.mem_cons_self
    · split at h <;> exact absurd h Bool.false_ne_true
    · obtain rfl := of_decide_eq_true h
      exact List.mem_cons_self

/-- Names that match the components one by one and lead to the same file are the components. -/
theorem eq_of_forall₂ {pats names : List (List Char)} (h : List.Forall₂ FitsName pats names)
    (hdot : ∀ pat ∈ pats, '.' ∉ pat.take 2) (hsteps : names.filter isStep = pats.filter isStep) :
    names = pats := by
  induction h with
  | nil => rfl
  | @cons pat name pats names hfit _ ih =>
    have ih' := ih fun pat hpat => hdot pat (List.mem_cons_of_mem _ hpat)
    by_cases hnil : pat = []
    · subst hnil
      -- an empty component is no pattern for a name
      obtain rfl : name = [] := (Shell.fit_nil name).1 hfit.fit
      rw [ih' hsteps]
    · have hpat : isStep pat := by
        have hne : pat ≠ ['.'] := fun heq => hdot pat List.mem_cons_self (heq ▸ List.mem_singleton_self _)
        simp [isStep, hnil, hne]
      have hname : isStep name := by
        have hne : name ≠ ['.'] := fun heq =>
          hdot pat List.mem_cons_self (mem_take_of_isDot (hfit.dot (heq ▸ rfl)))
        simp [isStep, mt hfit.name_ne hnil, hne]
      rw [List.filter_cons_of_pos hname, List.filter_cons_of_pos hpat] at hsteps
      obtain ⟨hhead, hrest⟩ := List.cons.inj hsteps
      rw [hhead, ih' hrest]

/-- A word below a directory names itself only among the paths below it that lead to the same file. -/
theorem Names.eq_of_sameFile {root word path : List Char} (h : Names (root ++ '/' :: word) (root ++ '/' :: path))
    (hdot : ∀ pat ∈ word.splitOn '/', '.' ∉ pat.take 2) (hsame : SameFile path word) : path = word := by
  have hfits := h.2
  rw [List.splitOn_append_cons_self, List.splitOn_append_cons_self] at hfits
  have hbelow := List.forall₂_drop_append _ _ _ hfits
  rw [List.drop_left] at hbelow
  exact splitOn_injective (eq_of_forall₂ hbelow hdot (sameFile_iff.1 hsame))

end CWorkspace.Paths
