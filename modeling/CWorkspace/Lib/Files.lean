import CWorkspace.Lib.Paths

/-!
# File systems

The files are numbered; `entry` gives the names in a directory. Opening a path for writing empties the file it
leads to (`truncates`) or makes one in the last directory of the path (`makes`); no other file changes
(`overwrite_keeps_iff`).
-/

namespace CWorkspace
open Paths (isStep)

inductive Node
  | file (content : List Char) (readable writable : Bool)
  | directory (readable writable : Bool)

def Node.content : Node → Option (List Char)
  | file content _ _ => some content
  | directory _ _ => none

def Node.set (text : List Char) : Node → Node
  | file _ readable writable => file text readable writable
  | directory readable writable => directory readable writable

structure FileSystem where
  nodes : List Node
  entry : ℕ → List Char → Option ℕ
  root : ℕ
  cwd : ℕ
  entry_lt : ∀ d name i, entry d name = some i → i < nodes.length

namespace FileSystem
variable (fs : FileSystem)

def isDirectory (d : ℕ) : Bool :=
  match fs.nodes[d]? with
  | some (.directory _ _) => true
  | _ => false

def canWrite (i : ℕ) : Bool :=
  match fs.nodes[i]? with
  | some (.file _ _ writable) | some (.directory _ writable) => writable
  | none => false

def canRead (i : ℕ) : Bool :=
  match fs.nodes[i]? with
  | some (.file _ readable _) | some (.directory readable _) => readable
  | none => false

def content (i : ℕ) : Option (List Char) := fs.nodes[i]?.bind Node.content

/-! ### Paths -/

def step (d : ℕ) (name : List Char) : Option ℕ :=
  if !fs.isDirectory d then none else if isStep name then fs.entry d name else some d

def start (path : List Char) : ℕ := if path.head? = some '/' then fs.root else fs.cwd

/-- The directory the last component of a path is looked up in. -/
def parent (path : List Char) : Option ℕ := (path.splitOn '/').dropLast.foldlM fs.step (fs.start path)

def lastName (path : List Char) : List Char := (path.splitOn '/').getLast (List.splitOn_ne_nil '/' path)

/-- What a path leads to; the empty path leads nowhere. -/
def find (path : List Char) : Option ℕ :=
  if path = [] then none else (fs.parent path).bind fun d => fs.step d (lastName path)

/-- `[[ -f path ]]` -/
def isFile (path : List Char) : Bool := ((fs.find path).bind fs.content).isSome

/-- Opening for reading succeeds, also on a directory. -/
def opens (path : List Char) : Bool := (fs.find path).any fs.canRead

/-! ### Writing -/

/-- The file that is emptied when the path is opened for writing. -/
def truncates (path : List Char) : Option ℕ :=
  (fs.find path).filter fun i => (fs.content i).isSome && fs.canWrite i

/-- The directory in which a file is made when the path, which leads nowhere, is opened for writing. -/
def makes (path : List Char) : Option ℕ :=
  if (fs.find path).isSome then none
  else (fs.parent path).filter fun d => fs.isDirectory d && fs.canWrite d && isStep (lastName path)

def put (i : ℕ) (text : List Char) : FileSystem where
  nodes := fs.nodes.modify i (Node.set text)
  entry := fs.entry
  root := fs.root
  cwd := fs.cwd
  entry_lt d name j h := by rw [List.length_modify]; exact fs.entry_lt d name j h

def make (d : ℕ) (name text : List Char) : FileSystem where
  nodes := fs.nodes ++ [.file text true true]
  entry d' name' := if d' = d ∧ name' = name then some fs.nodes.length else fs.entry d' name'
  root := fs.root
  cwd := fs.cwd
  entry_lt d' name' j h := by
    rw [List.length_append, List.length_singleton]
    split_ifs at h
    · rw [← Option.some.inj h]; omega
    · have := fs.entry_lt d' name' j h
      omega

/-- Opening for writing and writing a text; `none` if the path does not open. -/
def overwrite (path text : List Char) : Option FileSystem :=
  match fs.truncates path with
  | some i => some (fs.put i text)
  | none => (fs.makes path).map fun d => fs.make d (lastName path) text

/-! ### What stays -/

/-- Every file is still there with its text. -/
def Keeps (fs fs' : FileSystem) : Prop := ∀ i text, fs.content i = some text → fs'.content i = some text

variable {fs}

theorem Keeps.refl : Keeps fs fs := fun _ _ h => h

theorem Keeps.trans {fs' fs'' : FileSystem} (h : Keeps fs fs') (h' : Keeps fs' fs'') : Keeps fs fs'' :=
  fun i text hi => h' i text (h i text hi)

theorem content_put (fs : FileSystem) (i j : ℕ) (text : List Char) :
    (fs.put i text).content j = if i = j then (fs.content j).map fun _ => text else fs.content j := by
  rw [content, content, put, List.getElem?_modify]
  cases fs.nodes[j]? with
  | none => simp
  | some node =>
    split_ifs
    · cases node <;> rfl
    · rfl

theorem getElem?_make (d : ℕ) (name text : List Char) {i : ℕ} {node : Node} (h : fs.nodes[i]? = some node) :
    (fs.make d name text).nodes[i]? = some node := by
  rw [← h]
  exact List.getElem?_append_left (List.getElem?_eq_some_iff.1 h).1

theorem keeps_make (d : ℕ) (name text : List Char) : Keeps fs (fs.make d name text) := by
  intro i old h
  obtain ⟨node, hnode, hold⟩ := Option.bind_eq_some_iff.1 h
  rw [content, getElem?_make d name text hnode]
  exact hold

/-- Of the files there were before, only the one that is emptied may have lost its text. -/
theorem overwrite_keeps_iff {fs₀ : FileSystem} (h₀ : Keeps fs₀ fs) (path text : List Char) :
    Keeps fs₀ ((fs.overwrite path text).getD fs) ↔
      ∀ i, fs.truncates path = some i → ∀ old, fs₀.content i = some old → old = text := by
  rw [overwrite]
  cases fs.truncates path with
  | some i =>
    constructor
    · intro hkeeps j hj old hold
      obtain rfl := Option.some.inj hj
      have hput := content_put fs i i text
      rw [if_pos rfl, h₀ i old hold] at hput
      exact Option.some.inj ((hkeeps i old hold).symm.trans hput)
    · intro hsame j old hold
      rw [Option.getD_some, content_put, h₀ j old hold]
      split_ifs with hij
      · subst hij
        rw [hsame i rfl old hold]; rfl
      · rfl
  | none =>
    refine iff_of_true ?_ fun i hi => absurd hi (by simp)
    cases fs.makes path with
    | none => exact h₀
    | some d => exact h₀.trans (keeps_make _ _ _)

theorem makes_eq_some {path : List Char} {d : ℕ} (h : fs.makes path = some d) :
    fs.parent path = some d ∧ fs.isDirectory d ∧ isStep (lastName path) ∧ fs.entry d (lastName path) = none := by
  rw [makes] at h
  split_ifs at h with hfind
  obtain ⟨hparent, hd⟩ := Option.filter_eq_some_iff.1 h
  rw [Bool.and_eq_true, Bool.and_eq_true] at hd
  obtain ⟨⟨hdir, -⟩, hstep⟩ := hd
  have hne : path ≠ [] := by
    rintro rfl
    exact absurd hstep Bool.false_ne_true
  rw [find, if_neg hne, hparent, Option.bind_some, step, hdir, hstep, Option.not_isSome_iff_eq_none] at hfind
  exact ⟨hparent, hdir, hstep, hfind⟩

theorem isDirectory_make {d d' : ℕ} {name text : List Char} (h : fs.isDirectory d') :
    (fs.make d name text).isDirectory d' := by
  unfold isDirectory at h ⊢
  split at h
  · rename_i hnode
    rw [getElem?_make d name text hnode]
  · exact absurd h Bool.false_ne_true

/-- Where a name is new, all paths lead on to where they have led. -/
theorem step_make {d d₁ d₂ : ℕ} {name text name' : List Char} (hnew : fs.entry d name = none)
    (h : fs.step d₁ name' = some d₂) : (fs.make d name text).step d₁ name' = some d₂ := by
  rw [step] at h
  split_ifs at h with hdir hstep
  · have hentry : (fs.make d name text).entry d₁ name' = some d₂ := by
      show (if d₁ = d ∧ name' = name then _ else _) = _
      rw [if_neg, h]
      rintro ⟨rfl, rfl⟩
      rw [hnew] at h
      cases h
    rw [step, isDirectory_make (by simpa using hdir), hstep, hentry]; rfl
  · rw [step, isDirectory_make (by simpa using hdir), Bool.eq_false_iff.2 hstep, h]; rfl

theorem parent_make {d d' : ℕ} {name text path : List Char} (hnew : fs.entry d name = none)
    (h : fs.parent path = some d') : (fs.make d name text).parent path = some d' := by
  rw [parent] at h ⊢
  have hstart : (fs.make d name text).start path = fs.start path := rfl
  rw [hstart]
  generalize (path.splitOn '/').dropLast = names at h ⊢
  generalize fs.start path = d₀ at h ⊢
  induction names generalizing d₀ with
  | nil => exact h
  | cons name' names ih =>
    rw [List.foldlM_cons] at h ⊢
    obtain ⟨d₁, hstep, hrest⟩ := Option.bind_eq_some_iff.1 h
    rw [step_make hnew hstep]
    exact ih d₁ hrest

theorem find_make {path : List Char} {d : ℕ} (h : fs.makes path = some d) (text : List Char) :
    (fs.make d (lastName path) text).find path = some fs.nodes.length := by
  obtain ⟨hparent, hdir, hstep, hnew⟩ := makes_eq_some h
  have hne : path ≠ [] := by
    rintro rfl
    exact absurd hstep Bool.false_ne_true
  have hentry : (fs.make d (lastName path) text).entry d (lastName path) = some fs.nodes.length :=
    if_pos ⟨rfl, rfl⟩
  rw [find, if_neg hne, parent_make hnew hparent, Option.bind_some, step, isDirectory_make hdir, hstep, hentry]; rfl

theorem find_overwrite_iff {path : List Char} (h : fs.find path = none) (text : List Char) :
    (((fs.overwrite path text).getD fs).find path).isSome ↔ (fs.makes path).isSome := by
  have htrunc : fs.truncates path = none := by rw [truncates, h]; rfl
  rw [overwrite, htrunc]
  cases hmakes : fs.makes path with
  | none =>
    show (fs.find path).isSome ↔ _
    rw [h]
  | some d =>
    show ((fs.make d (lastName path) text).find path).isSome ↔ _
    rw [find_make hmakes]
    exact iff_of_true rfl rfl

end FileSystem

end CWorkspace
