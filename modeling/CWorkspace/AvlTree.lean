import CWorkspace.Lib.Compare

/-!
# The balanced tree

`avl_tree.c` of fastcommon: a search tree under the caller's `compare_func`, where each node keeps the
difference of the heights of its subtrees. A node is reached through the pointer that holds it, so a function
that changes a subtree returns the new one; `none` is a dereference of `NULL`.
-/

namespace CWorkspace

inductive AVLTreeNode (D : Type*)
  | null
  | node (left : AVLTreeNode D) (data : D) (balance : ℤ) (right : AVLTreeNode D)

def AVLTreeNode.isNull {D : Type*} : AVLTreeNode D → Bool
  | null => true
  | node .. => false

namespace AVLTree
open AVLTreeNode
variable {D τ : Type*}

/-! ### Rotations -/

def avlRotateLeft : AVLTreeNode D → Option (AVLTreeNode D)
  | node a x b (node c y b' d) => some (node (node a x b c) y b' d)
  | _ => none

def avlRotateRight : AVLTreeNode D → Option (AVLTreeNode D)
  | node (node a x b c) y b' d => some (node a x b (node c y b' d))
  | _ => none

/-- `case 1` of the left balance functions. -/
def avlLeftRight : AVLTreeNode D → Option (AVLTreeNode D)
  | node (node ll lx lb (node a y yb c)) x b r => do
    let b := if yb = -1 then 1 else if yb = 0 then 0 else if yb = 1 then 0 else b
    let lb := if yb = -1 then 0 else if yb = 0 then 0 else if yb = 1 then -1 else lb
    let left ← avlRotateLeft (node ll lx lb (node a y 0 c))
    avlRotateRight (node left x b r)
  | _ => none

def avlRightLeft : AVLTreeNode D → Option (AVLTreeNode D)
  | node l x b (node (node a y yb c) rx rb rr) => do
    let b := if yb = 1 then -1 else if yb = 0 then 0 else if yb = -1 then 0 else b
    let rb := if yb = 1 then 0 else if yb = 0 then 0 else if yb = -1 then 1 else rb
    let right ← avlRotateRight (node (node a y 0 c) rx rb rr)
    avlRotateLeft (node l x b right)
  | _ => none

/-- `if (*flag != 0) switch …`, on the tree with its flag. -/
def ifSet (flag : Bool) (switch : AVLTreeNode D → Option (AVLTreeNode D × Bool)) (t : AVLTreeNode D) :
    Option (AVLTreeNode D × Bool) :=
  if flag then switch t else some (t, false)

/-! ### Insertion -/

/-- The second component is `*taller`. -/
def avlLeftBalanceWhenInsert : AVLTreeNode D → Option (AVLTreeNode D × Bool)
  | node (node ll lx lb lr) x b r =>
    if lb = -1 then (avlRotateRight (node (node ll lx 0 lr) x 0 r)).map (·, false)
    else if lb = 0 then some (node (node ll lx lb lr) x b r, true)
    else if lb = 1 then (avlLeftRight (node (node ll lx lb lr) x b r)).map (·, false)
    else some (node (node ll lx lb lr) x b r, true)
  | _ => none

def avlRightBalanceWhenInsert : AVLTreeNode D → Option (AVLTreeNode D × Bool)
  | node l x b (node rl rx rb rr) =>
    if rb = 1 then (avlRotateLeft (node l x 0 (node rl rx 0 rr))).map (·, false)
    else if rb = 0 then some (node l x b (node rl rx rb rr), true)
    else if rb = -1 then (avlRightLeft (node l x b (node rl rx rb rr))).map (·, false)
    else some (node l x b (node rl rx rb rr), true)
  | _ => none

/-- What follows the recursion into the left subtree if `*taller != 0`. -/
def leftGrown : AVLTreeNode D → Option (AVLTreeNode D × Bool)
  | node l x b r =>
    if b = -1 then avlLeftBalanceWhenInsert (node l x b r)
    else if b = 0 then some (node l x (-1) r, true)
    else if b = 1 then some (node l x 0 r, false)
    else some (node l x b r, true)
  | null => none

def rightGrown : AVLTreeNode D → Option (AVLTreeNode D × Bool)
  | node l x b r =>
    if b = -1 then some (node l x 0 r, false)
    else if b = 0 then some (node l x 1 r, true)
    else if b = 1 then avlRightBalanceWhenInsert (node l x b r)
    else some (node l x b r, true)
  | null => none

def ENOMEM : ℤ := 12

/-- What an insertion leaves: the tree, `*taller`, the result, and the data handed to `free_data_func`. -/
structure Inserted (D : Type*) where
  tree : AVLTreeNode D
  taller : Bool
  success : ℤ
  freed : Option D

/-- `avl_tree_insert_loop` and `avl_tree_replace_loop`, which differ where they find the key (`found`).
`granted`: whether `malloc` finds the memory. -/
def insertLoop (cmp : D → D → ℤ) (found : AVLTreeNode D → Inserted D) (granted : Bool) (target : D) :
    AVLTreeNode D → Option (Inserted D)
  | null => some (if granted then ⟨node null target 0 null, true, 1, none⟩ else ⟨null, false, -ENOMEM, none⟩)
  | node l x b r =>
    if 0 < cmp x target then do
      let res ← insertLoop cmp found granted target l
      let top ← ifSet res.taller leftGrown (node res.tree x b r)
      some ⟨top.1, top.2, res.success, res.freed⟩
    else if cmp x target < 0 then do
      let res ← insertLoop cmp found granted target r
      let top ← ifSet res.taller rightGrown (node l x b res.tree)
      some ⟨top.1, top.2, res.success, res.freed⟩
    else some (found (node l x b r))

def insertFound (t : AVLTreeNode D) : Inserted D := ⟨t, false, 0, none⟩

def replaceFound (target : D) : AVLTreeNode D → Inserted D
  | node l x b r => ⟨node l target b r, false, 0, some x⟩
  | null => ⟨null, false, 0, none⟩

def insert (cmp : D → D → ℤ) (granted : Bool) (data : D) (t : AVLTreeNode D) : Option (Inserted D) :=
  insertLoop cmp insertFound granted data t

def replace (cmp : D → D → ℤ) (granted : Bool) (data : D) (t : AVLTreeNode D) : Option (Inserted D) :=
  insertLoop cmp (replaceFound data) granted data t

/-! ### Deletion -/

/-- The second component is `*shorter`. -/
def avlLeftBalanceWhenDelete : AVLTreeNode D → Option (AVLTreeNode D × Bool)
  | node (node ll lx lb lr) x b r =>
    if lb = -1 then (avlRotateRight (node (node ll lx 0 lr) x 0 r)).map (·, true)
    else if lb = 0 then (avlRotateRight (node (node ll lx 1 lr) x b r)).map (·, false)
    else if lb = 1 then (avlLeftRight (node (node ll lx lb lr) x b r)).map (·, true)
    else some (node (node ll lx lb lr) x b r, true)
  | _ => none

def avlRightBalanceWhenDelete : AVLTreeNode D → Option (AVLTreeNode D × Bool)
  | node l x b (node rl rx rb rr) =>
    if rb = 1 then (avlRotateLeft (node l x 0 (node rl rx 0 rr))).map (·, true)
    else if rb = 0 then (avlRotateLeft (node l x b (node rl rx (-1) rr))).map (·, false)
    else if rb = -1 then (avlRightLeft (node l x b (node rl rx rb rr))).map (·, true)
    else some (node l x b (node rl rx rb rr), true)
  | _ => none

/-- What follows the recursion into the left subtree if `*shorter != 0`. -/
def leftShrunk : AVLTreeNode D → Option (AVLTreeNode D × Bool)
  | node l x b r =>
    if b = -1 then some (node l x 0 r, true)
    else if b = 0 then some (node l x 1 r, false)
    else if b = 1 then avlRightBalanceWhenDelete (node l x b r)
    else some (node l x b r, true)
  | null => none

def rightShrunk : AVLTreeNode D → Option (AVLTreeNode D × Bool)
  | node l x b r =>
    if b = -1 then avlLeftBalanceWhenDelete (node l x b r)
    else if b = 0 then some (node l x (-1) r, false)
    else if b = 1 then some (node l x 0 r, true)
    else some (node l x b r, true)
  | null => none

/-- `avl_tree_delete_loop` with a `pDeletedDataNode`: the last element leaves the tree for that node. -/
def deleteLastLoop : AVLTreeNode D → Option (AVLTreeNode D × Bool × D)
  | null => none
  | node l x b r =>
    if r.isNull then some (l, true, x)
    else do
      let res ← deleteLastLoop r
      let top ← ifSet res.2.1 rightShrunk (node l x b res.1)
      some (top.1, top.2, res.2.2)

/-- What a deletion leaves: the tree, `*shorter`, the result, and the data handed to `free_data_func`. -/
structure Deleted (D : Type*) where
  tree : AVLTreeNode D
  shorter : Bool
  result : ℤ
  freed : Option D

/-- `avl_tree_delete_loop` without a `pDeletedDataNode`. -/
def deleteLoop (cmp : D → D → ℤ) (target : D) : AVLTreeNode D → Option (Deleted D)
  | null => none
  | node l x b r =>
    if 0 < cmp x target then
      if l.isNull then some ⟨node l x b r, false, 0, none⟩
      else do
        let res ← deleteLoop cmp target l
        let top ← ifSet res.shorter leftShrunk (node res.tree x b r)
        some ⟨top.1, top.2, res.result, res.freed⟩
    else if cmp x target < 0 then
      if r.isNull then some ⟨node l x b r, false, 0, none⟩
      else do
        let res ← deleteLoop cmp target r
        let top ← ifSet res.shorter rightShrunk (node l x b res.tree)
        some ⟨top.1, top.2, res.result, res.freed⟩
    else if l.isNull then some ⟨r, true, 1, some x⟩
    else if r.isNull then some ⟨l, true, 1, some x⟩
    else do
      let res ← deleteLastLoop l
      let top ← ifSet res.2.1 leftShrunk (node res.1 res.2.2 b r)
      some ⟨top.1, top.2, 1, some x⟩

def delete (cmp : D → D → ℤ) (data : D) (t : AVLTreeNode D) : Option (Deleted D) :=
  if t.isNull then some ⟨t, false, 0, none⟩ else deleteLoop cmp data t

def find (cmp : D → D → ℤ) (target : D) : AVLTreeNode D → Option D
  | null => none
  | node l x _ r =>
    if 0 < cmp x target then find cmp target l
    else if cmp x target < 0 then find cmp target r
    else some x

/-- `avl_tree_find_ge`. A datum that `isNull` is taken for nothing found: `found != NULL` is about the data. -/
def findGe (cmp : D → D → ℤ) (isNull : D → Bool) (target : D) : AVLTreeNode D → Option D
  | null => none
  | node l x _ r =>
    if 0 < cmp x target then
      match findGe cmp isNull target l with
      | some found => some (if isNull found then x else found)
      | none => some x
    else if cmp x target < 0 then findGe cmp isNull target r
    else some x

/-- `avl_tree_walk`; `args` is what `data_op_func` works on. -/
def walk (op : D → τ → ℤ × τ) : AVLTreeNode D → τ → ℤ × τ
  | null, args => (0, args)
  | node l x _ r, args =>
    let left := walk op l args
    if left.1 ≠ 0 then left
    else
      let here := op x left.2
      if here.1 ≠ 0 then here else walk op r here.2

/-- `avl_tree_count_loop`; `none` where `(*count)++` overflows. -/
def countLoop (INT_MAX : ℕ) : AVLTreeNode D → ℕ → Option ℕ
  | null, count => some count
  | node l _ _ r, count => do
    let count ← countLoop INT_MAX l count
    if count < INT_MAX then countLoop INT_MAX r (count + 1) else none

def count (INT_MAX : ℕ) (t : AVLTreeNode D) : Option ℕ := countLoop INT_MAX t 0

def depth : AVLTreeNode D → ℕ
  | null => 0
  | node l _ b r => (if b = -1 then depth l else depth r) + 1

/-- The order in which `avl_tree_destroy` frees the data. -/
def destroy : AVLTreeNode D → List D
  | null => []
  | node l x _ r => destroy l ++ destroy r ++ [x]

end AVLTree

end CWorkspace
