import CWorkspace.AvlTree.Balanced

/-!
# The tree as a sorted set

Every run of calls on an empty tree ends in a balanced tree with the elements of a sorted list of keys on which the
same calls are made; `NULL` is never dereferenced. The answers are those of the list if no datum is `NULL`, which
`avl_tree_find_ge` takes for nothing found.
-/

namespace CWorkspace.AVLTree
open AVLTreeNode
variable {D τ : Type*} {cmp : D → D → ℤ}

/-- `avl_tree_insert` and `avl_tree_replace` on a sorted list: the list, the result, what is freed. -/
def putKeys (cmp : D → D → ℤ) (replacing granted : Bool) (d : D) (L : List D) : List D × ℤ × Option D :=
  match Keys.find cmp d L with
  | some x => if replacing then (Keys.set cmp d L, 0, some x) else (L, 0, none)
  | none => if granted then (Keys.set cmp d L, 1, none) else (L, -ENOMEM, none)

def foundFor (replacing : Bool) (d : D) : AVLTreeNode D → Inserted D :=
  if replacing then replaceFound d else insertFound

section
variable {replacing granted : Bool} {d x : D} {L R : List D} (h : Compares cmp) (hs : Keys.Sorted cmp (L ++ x :: R))
include h hs

theorem putKeys_append_left (hx : 0 < cmp x d) : putKeys cmp replacing granted d (L ++ x :: R) =
    ((putKeys cmp replacing granted d L).1 ++ x :: R, (putKeys cmp replacing granted d L).2) := by
  unfold putKeys
  rw [Keys.find_append_left h hs hx, Keys.set_append_left h hs hx]
  split <;> split_ifs <;> rfl

theorem putKeys_append_right (hx : cmp x d < 0) : putKeys cmp replacing granted d (L ++ x :: R) =
    (L ++ x :: (putKeys cmp replacing granted d R).1, (putKeys cmp replacing granted d R).2) := by
  unfold putKeys
  rw [Keys.find_append_right h hs hx, Keys.set_append_right h hs hx]
  split <;> split_ifs <;> rfl

theorem putKeys_append_at (hx : cmp x d = 0) : putKeys cmp replacing granted d (L ++ x :: R) =
    if replacing then (L ++ d :: R, 0, some x) else (L ++ x :: R, 0, none) := by
  unfold putKeys
  rw [Keys.find_append_at h hs hx, Keys.set_append_at h hs hx]

end

theorem insertLoop_grown (h : Compares cmp) (replacing granted : Bool) (d : D) {t : AVLTreeNode D} {p : ℕ}
    {L : List D} (ht : Shape p L t) (hs : Keys.Sorted cmp L) :
    ∃ res, insertLoop cmp (foundFor replacing d) granted d t = some res ∧
      Grown p (putKeys cmp replacing granted d L).1 (res.tree, res.taller) ∧
      (res.success, res.freed) = (putKeys cmp replacing granted d L).2 := by
  induction t generalizing p L with
  | null =>
    obtain ⟨-, rfl, rfl⟩ := ht
    rcases granted with _ | _
    · exact ⟨_, rfl, ⟨.null, nofun⟩, rfl⟩
    · exact ⟨_, rfl, ⟨Shape.null.node .null rfl (by omega) rfl rfl, fun _ => .inl rfl⟩, rfl⟩
  | node l x b r ihl ihr =>
    obtain ⟨p, q, Ll, Lr, hl, hr, hb, hb₁, rfl, rfl⟩ := ht.of_node
    obtain ⟨hsl, hsr, -⟩ := Keys.sorted_append_cons.1 hs
    rw [insertLoop]
    by_cases hgt : 0 < cmp x d
    · obtain ⟨res, hres, hgrown, hres₂⟩ := ihl hl hsl
      obtain ⟨top, htop, hgrown'⟩ := leftGrown_of_grown (x := x) hgrown hr hb hb₁
      rw [if_pos hgt, putKeys_append_left h hs hgt, hres]
      refine ⟨⟨top.1, top.2, res.success, res.freed⟩, ?_, hgrown', hres₂⟩
      simp only [Option.bind_eq_bind, Option.bind_some, htop]
    rw [if_neg hgt]
    by_cases hlt : cmp x d < 0
    · obtain ⟨res, hres, hgrown, hres₂⟩ := ihr hr hsr
      obtain ⟨top, htop, hgrown'⟩ := rightGrown_of_grown (x := x) hl hgrown hb hb₁
      rw [if_pos hlt, putKeys_append_right h hs hlt, hres]
      refine ⟨⟨top.1, top.2, res.success, res.freed⟩, ?_, hgrown', hres₂⟩
      simp only [Option.bind_eq_bind, Option.bind_some, htop]
    · rw [if_neg hlt, putKeys_append_at h hs (by omega)]
      rcases replacing with _ | _
      · exact ⟨_, rfl, ⟨ht, nofun⟩, rfl⟩
      · exact ⟨_, rfl, ⟨hl.node hr hb hb₁ rfl rfl, nofun⟩, rfl⟩

theorem deleteLastLoop_shrunk {t : AVLTreeNode D} {p : ℕ} {L : List D} (ht : Shape p L t) (hp : 0 < p) :
    ∃ res L', deleteLastLoop t = some res ∧ L = L' ++ [res.2.2] ∧ Shrunk p L' (res.1, res.2.1) := by
  induction t generalizing p L with
  | null => exact absurd hp (Nat.not_lt.2 (Nat.le_of_eq ht.height.symm))
  | node l x b r _ ihr =>
    obtain ⟨p, q, Ll, Lr, hl, hr, hb, hb₁, rfl, rfl⟩ := ht.of_node
    unfold deleteLastLoop
    split_ifs with hnull
    · obtain ⟨rfl, rfl⟩ := hr.isNull hnull
      exact ⟨_, Ll, rfl, rfl, p, by rw [Nat.max_zero]; rfl, hl⟩
    · obtain ⟨res, L', hres, rfl, hshrunk⟩ := ihr hr (hr.pos_of_not_isNull hnull)
      obtain ⟨top, htop, hshrunk'⟩ := rightShrunk_of_shrunk (x := x) hl hshrunk hb hb₁
      refine ⟨⟨top.1, top.2, res.2.2⟩, Ll ++ x :: L', ?_, by simp, hshrunk'⟩
      simp only [Option.bind_eq_bind, hres, Option.bind_some, htop]

theorem deleteLoop_shrunk (h : Compares cmp) (d : D) {t : AVLTreeNode D} {p : ℕ} {L : List D} (ht : Shape p L t)
    (hp : 0 < p) (hs : Keys.Sorted cmp L) :
    ∃ res, deleteLoop cmp d t = some res ∧ Shrunk p (Keys.erase cmp d L) (res.tree, res.shorter) ∧
      res.result = (if (Keys.find cmp d L).isSome then 1 else 0) ∧ res.freed = Keys.find cmp d L := by
  induction t generalizing p L with
  | null => exact absurd hp (Nat.not_lt.2 (Nat.le_of_eq ht.height.symm))
  | node l x b r ihl ihr =>
    obtain ⟨p, q, Ll, Lr, hl, hr, hb, hb₁, rfl, rfl⟩ := ht.of_node
    obtain ⟨hsl, hsr, -⟩ := Keys.sorted_append_cons.1 hs
    unfold deleteLoop
    by_cases hgt : 0 < cmp x d
    · rw [if_pos hgt, Keys.erase_append_left h hs hgt, Keys.find_append_left h hs hgt]
      by_cases hnull : l.isNull = true
      · rw [if_pos hnull]
        obtain ⟨rfl, rfl⟩ := hl.isNull hnull
        exact ⟨_, rfl, ⟨_, rfl, ht⟩, rfl, rfl⟩
      · rw [if_neg hnull]
        obtain ⟨res, hres, hshrunk, hres₂⟩ := ihl hl (hl.pos_of_not_isNull hnull) hsl
        obtain ⟨top, htop, hshrunk'⟩ := leftShrunk_of_shrunk (x := x) hshrunk hr hb hb₁
        refine ⟨⟨top.1, top.2, res.result, res.freed⟩, ?_, hshrunk', hres₂⟩
        simp only [Option.bind_eq_bind, hres, Option.bind_some, htop]
    rw [if_neg hgt]
    by_cases hlt : cmp x d < 0
    · rw [if_pos hlt, Keys.erase_append_right h hs hlt, Keys.find_append_right h hs hlt]
      by_cases hnull : r.isNull = true
      · rw [if_pos hnull]
        obtain ⟨rfl, rfl⟩ := hr.isNull hnull
        exact ⟨_, rfl, ⟨_, rfl, ht⟩, rfl, rfl⟩
      · rw [if_neg hnull]
        obtain ⟨res, hres, hshrunk, hres₂⟩ := ihr hr (hr.pos_of_not_isNull hnull) hsr
        obtain ⟨top, htop, hshrunk'⟩ := rightShrunk_of_shrunk (x := x) hl hshrunk hb hb₁
        refine ⟨⟨top.1, top.2, res.result, res.freed⟩, ?_, hshrunk', hres₂⟩
        simp only [Option.bind_eq_bind, hres, Option.bind_some, htop]
    · have hx : cmp x d = 0 := by omega
      rw [if_neg hlt, Keys.erase_append_at h hs hx, Keys.find_append_at h hs hx, Option.isSome_some, if_pos rfl]
      split_ifs with hnull hnull'
      · obtain ⟨rfl, rfl⟩ := hl.isNull hnull
        exact ⟨_, rfl, ⟨q, by rw [Nat.zero_max]; rfl, hr⟩, rfl, rfl⟩
      · obtain ⟨rfl, rfl⟩ := hr.isNull hnull'
        refine ⟨_, rfl, ⟨p, by rw [Nat.max_zero]; rfl, ?_⟩, rfl, rfl⟩
        rw [List.append_nil]
        exact hl
      · -- the last element of the left subtree comes into the node
        obtain ⟨res, L', hres, rfl, hshrunk⟩ := deleteLastLoop_shrunk hl (hl.pos_of_not_isNull hnull)
        obtain ⟨top, htop, hshrunk'⟩ := leftShrunk_of_shrunk (x := res.2.2) hshrunk hr hb hb₁
        refine ⟨⟨top.1, top.2, 1, some x⟩, ?_, ?_, rfl, rfl⟩
        · simp only [Option.bind_eq_bind, hres, Option.bind_some, htop]
        · rw [List.append_assoc, List.singleton_append]
          exact hshrunk'

theorem find_eq (h : Compares cmp) (d : D) {t : AVLTreeNode D} (hs : Keys.Sorted cmp (toList t)) :
    find cmp d t = Keys.find cmp d (toList t) := by
  induction t with
  | null => rfl
  | node l x b r ihl ihr =>
    obtain ⟨hsl, hsr, -⟩ := Keys.sorted_append_cons.1 hs
    unfold find toList
    split_ifs with hgt hlt
    · rw [ihl hsl, Keys.find_append_left h hs hgt]
    · rw [ihr hsr, Keys.find_append_right h hs hlt]
    · rw [Keys.find_append_at h hs (by omega)]

theorem findGe_eq (h : Compares cmp) (d : D) {isNull : D → Bool} {t : AVLTreeNode D}
    (hs : Keys.Sorted cmp (toList t)) (hnull : ∀ x ∈ toList t, isNull x = false) :
    findGe cmp isNull d t = Keys.findGe cmp d (toList t) := by
  induction t with
  | null => rfl
  | node l x b r ihl ihr =>
    obtain ⟨hsl, hsr, -⟩ := Keys.sorted_append_cons.1 hs
    have hl : ∀ y ∈ toList l, isNull y = false := fun y hy => hnull y (List.mem_append_left _ hy)
    have hr : ∀ y ∈ toList r, isNull y = false := fun y hy =>
      hnull y (List.mem_append_right _ (List.mem_cons_of_mem x hy))
    unfold findGe toList
    split_ifs with hgt hlt
    · rw [ihl hsl hl, Keys.findGe_append_cons, if_pos (by omega)]
      rcases hfound : Keys.findGe cmp d (toList l) with _ | found
      · rfl
      · have hsome := hl found (List.mem_of_find?_eq_some hfound)
        show some (if isNull found = true then x else found) = some found
        rw [hsome, if_neg Bool.false_ne_true]
    · rw [ihr hsr hr, Keys.findGe_append_right h hs hlt]
    · rw [Keys.findGe_append_at h hs (by omega)]

theorem countLoop_eq {INT_MAX n : ℕ} (hn : n ≤ INT_MAX) (t : AVLTreeNode D) : countLoop INT_MAX t n =
    if n + (toList t).length ≤ INT_MAX then some (n + (toList t).length) else none := by
  induction t generalizing n with
  | null => exact (if_pos hn).symm
  | node l x b r ihl ihr =>
    unfold countLoop toList
    rw [ihl hn, List.length_append, List.length_cons]
    by_cases hl : n + (toList l).length < INT_MAX
    · rw [if_pos (Nat.le_of_lt hl), Option.bind_eq_bind, Option.bind_some, if_pos hl, ihr hl]
      congr 2 <;> omega
    · have hmany : ¬ n + ((toList l).length + ((toList r).length + 1)) ≤ INT_MAX := by omega
      rw [if_neg hmany]
      split_ifs with hle
      · exact if_neg hl
      · rfl

theorem count_eq (INT_MAX : ℕ) (t : AVLTreeNode D) :
    count INT_MAX t = if (toList t).length ≤ INT_MAX then some (toList t).length else none := by
  have hcount := countLoop_eq (Nat.zero_le INT_MAX) t
  rwa [Nat.zero_add] at hcount

/-- The walk over a list of elements, until `data_op_func` answers something else than 0. -/
def walkKeys (op : D → τ → ℤ × τ) : List D → τ → ℤ × τ
  | [], args => (0, args)
  | x :: L, args => if (op x args).1 ≠ 0 then op x args else walkKeys op L (op x args).2

theorem walkKeys_append (op : D → τ → ℤ × τ) (L R : List D) (args : τ) : walkKeys op (L ++ R) args =
    if (walkKeys op L args).1 ≠ 0 then walkKeys op L args else walkKeys op R (walkKeys op L args).2 := by
  induction L generalizing args with
  | nil => rfl
  | cons x L ih =>
    rw [List.cons_append, walkKeys, walkKeys, ih]
    by_cases hx : (op x args).1 ≠ 0
    · rw [if_pos hx, if_pos hx, if_pos hx]
    · rw [if_neg hx, if_neg hx]

theorem walk_eq (op : D → τ → ℤ × τ) (t : AVLTreeNode D) (args : τ) :
    walk op t args = walkKeys op (toList t) args := by
  induction t generalizing args with
  | null => rfl
  | node l x b r ihl ihr =>
    unfold walk toList
    rw [walkKeys_append, walkKeys, ihl]
    simp only [ihr]

/-! ### Runs -/

inductive Call (D τ : Type*)
  | insert (d : D) (granted : Bool)
  | replace (d : D) (granted : Bool)
  | delete (d : D)
  | find (d : D)
  | findGe (d : D)
  | walk (op : D → τ → ℤ × τ) (args : τ)
  | count

/-- `freed`: what was handed to `free_data_func`; a number is `none` where no `int` holds it. -/
inductive Answer (D τ : Type*)
  | result (n : ℤ) (freed : Option D)
  | found (d : Option D)
  | walked (n : ℤ) (args : τ)
  | counted (n : Option ℕ)

def Call.data : Call D τ → List D
  | .insert d _ | .replace d _ => [d]
  | _ => []

def exec (cmp : D → D → ℤ) (isNull : D → Bool) (INT_MAX : ℕ) (t : AVLTreeNode D) :
    Call D τ → Option (Answer D τ × AVLTreeNode D)
  | .insert d granted => (insert cmp granted d t).map fun res => (.result res.success res.freed, res.tree)
  | .replace d granted => (replace cmp granted d t).map fun res => (.result res.success res.freed, res.tree)
  | .delete d => (delete cmp d t).map fun res => (.result res.result res.freed, res.tree)
  | .find d => some (.found (find cmp d t), t)
  | .findGe d => some (.found (findGe cmp isNull d t), t)
  | .walk op args => some (.walked (walk op t args).1 (walk op t args).2, t)
  | .count => some (.counted (count INT_MAX t), t)

def run (cmp : D → D → ℤ) (isNull : D → Bool) (INT_MAX : ℕ) (t : AVLTreeNode D) :
    List (Call D τ) → Option (List (Answer D τ) × AVLTreeNode D)
  | [] => some ([], t)
  | c :: cs => do
    let res ← exec cmp isNull INT_MAX t c
    let rest ← run cmp isNull INT_MAX res.2 cs
    some (res.1 :: rest.1, rest.2)

def execKeys (cmp : D → D → ℤ) (INT_MAX : ℕ) (L : List D) : Call D τ → Answer D τ × List D
  | .insert d granted => (.result (putKeys cmp false granted d L).2.1 (putKeys cmp false granted d L).2.2,
      (putKeys cmp false granted d L).1)
  | .replace d granted => (.result (putKeys cmp true granted d L).2.1 (putKeys cmp true granted d L).2.2,
      (putKeys cmp true granted d L).1)
  | .delete d => (.result (if (Keys.find cmp d L).isSome then 1 else 0) (Keys.find cmp d L), Keys.erase cmp d L)
  | .find d => (.found (Keys.find cmp d L), L)
  | .findGe d => (.found (Keys.findGe cmp d L), L)
  | .walk op args => (.walked (walkKeys op L args).1 (walkKeys op L args).2, L)
  | .count => (.counted (if L.length ≤ INT_MAX then some L.length else none), L)

def runKeys (cmp : D → D → ℤ) (INT_MAX : ℕ) (L : List D) : List (Call D τ) → List (Answer D τ) × List D
  | [] => ([], L)
  | c :: cs =>
    let res := execKeys cmp INT_MAX L c
    let rest := runKeys cmp INT_MAX res.2 cs
    (res.1 :: rest.1, rest.2)

theorem sorted_putKeys (h : Compares cmp) (replacing granted : Bool) (d : D) {L : List D} (hs : Keys.Sorted cmp L) :
    Keys.Sorted cmp (putKeys cmp replacing granted d L).1 := by
  unfold putKeys
  split <;> split_ifs
  · exact Keys.sorted_set h hs
  · exact hs
  · exact Keys.sorted_set h hs
  · exact hs

theorem delete_shrunk (h : Compares cmp) (d : D) {t : AVLTreeNode D} {p : ℕ} {L : List D} (ht : Shape p L t)
    (hs : Keys.Sorted cmp L) :
    ∃ res, delete cmp d t = some res ∧ Shrunk p (Keys.erase cmp d L) (res.tree, res.shorter) ∧
      res.result = (if (Keys.find cmp d L).isSome then 1 else 0) ∧ res.freed = Keys.find cmp d L := by
  unfold delete
  by_cases hnull : t.isNull = true
  · obtain ⟨rfl, rfl⟩ := ht.isNull hnull
    rw [if_pos hnull]
    exact ⟨_, rfl, ⟨0, rfl, ht⟩, rfl, rfl⟩
  · rw [if_neg hnull]
    exact deleteLoop_shrunk h d ht (ht.pos_of_not_isNull hnull) hs

section
variable (isNull : D → Bool) (INT_MAX : ℕ)

theorem sorted_execKeys (h : Compares cmp) (c : Call D τ) {L : List D} (hs : Keys.Sorted cmp L) :
    Keys.Sorted cmp (execKeys cmp INT_MAX L c).2 := by
  cases c with
  | insert d granted => exact sorted_putKeys h false granted d hs
  | replace d granted => exact sorted_putKeys h true granted d hs
  | delete d => exact Keys.sorted_erase hs
  | find d => exact hs
  | findGe d => exact hs
  | walk op args => exact hs
  | count => exact hs

theorem mem_of_mem_putKeys {replacing granted : Bool} {d x : D} {L : List D}
    (hx : x ∈ (putKeys cmp replacing granted d L).1) : x = d ∨ x ∈ L := by
  unfold putKeys at hx
  split at hx <;> split_ifs at hx
  · exact Keys.mem_of_mem_set hx
  · exact .inr hx
  · exact Keys.mem_of_mem_set hx
  · exact .inr hx

theorem mem_of_mem_execKeys {INT_MAX : ℕ} {c : Call D τ} {x : D} {L : List D} (hx : x ∈ (execKeys cmp INT_MAX L c).2) :
    x ∈ c.data ∨ x ∈ L := by
  cases c with
  | insert d granted => exact (mem_of_mem_putKeys hx).imp_left List.mem_singleton.2
  | replace d granted => exact (mem_of_mem_putKeys hx).imp_left List.mem_singleton.2
  | delete d => exact .inr (List.mem_filter.1 hx).1
  | find d => exact .inr hx
  | findGe d => exact .inr hx
  | walk op args => exact .inr hx
  | count => exact .inr hx

def Answer.outcome : Answer D τ → Option (ℤ × Option D)
  | .result n d => some (n, d)
  | _ => none

/-- One call: only `avl_tree_find_ge` may answer otherwise, if there are `NULL`s. -/
theorem exec_eq (h : Compares cmp) (c : Call D τ) {t : AVLTreeNode D} {p : ℕ} {L : List D} (ht : Shape p L t)
    (hs : Keys.Sorted cmp L) : ∃ a t' p', exec cmp isNull INT_MAX t c = some (a, t') ∧
      a.outcome = (execKeys cmp INT_MAX L c).1.outcome ∧
      ((∀ x ∈ L, isNull x = false) → a = (execKeys cmp INT_MAX L c).1) ∧
      Shape p' (execKeys cmp INT_MAX L c).2 t' := by
  have hs' : Keys.Sorted cmp (toList t) := by
    rw [ht.toList]
    exact hs
  have hsame : ∀ {t' p'}, exec cmp isNull INT_MAX t c = some ((execKeys cmp INT_MAX L c).1, t') →
      Shape p' (execKeys cmp INT_MAX L c).2 t' → ∃ a t' p', exec cmp isNull INT_MAX t c = some (a, t') ∧
        a.outcome = (execKeys cmp INT_MAX L c).1.outcome ∧
        ((∀ x ∈ L, isNull x = false) → a = (execKeys cmp INT_MAX L c).1) ∧
        Shape p' (execKeys cmp INT_MAX L c).2 t' :=
    fun hexec ht' => ⟨_, _, _, hexec, rfl, fun _ => rfl, ht'⟩
  cases c with
  | insert d granted =>
    obtain ⟨res, hres, hgrown, hres₂⟩ := insertLoop_grown h false granted d ht hs
    have hins : insert cmp granted d t = some res := hres
    refine hsame ?_ hgrown.shape
    rw [exec, hins, execKeys, ← hres₂]
    rfl
  | replace d granted =>
    obtain ⟨res, hres, hgrown, hres₂⟩ := insertLoop_grown h true granted d ht hs
    have hrep : replace cmp granted d t = some res := hres
    refine hsame ?_ hgrown.shape
    rw [exec, hrep, execKeys, ← hres₂]
    rfl
  | delete d =>
    obtain ⟨res, hres, ⟨p', -, hshape⟩, hresult, hfreed⟩ := delete_shrunk h d ht hs
    refine hsame ?_ hshape
    rw [exec, hres, execKeys, ← hresult, ← hfreed]
    rfl
  | find d =>
    refine hsame ?_ ht
    rw [exec, find_eq h d hs', ht.toList, execKeys]
  | findGe d =>
    refine ⟨_, _, p, rfl, rfl, fun hnull => ?_, ht⟩
    rw [findGe_eq h d hs' (ht.toList.symm ▸ hnull), ht.toList, execKeys]
  | walk op args =>
    refine hsame ?_ ht
    rw [exec, walk_eq, ht.toList, execKeys]
  | count =>
    refine hsame ?_ ht
    rw [exec, count_eq, ht.toList, execKeys]

theorem run_shape (h : Compares cmp) (cs : List (Call D τ)) {t : AVLTreeNode D} {p : ℕ} {L : List D}
    (ht : Shape p L t) (hs : Keys.Sorted cmp L) : ∃ as t' p', run cmp isNull INT_MAX t cs = some (as, t') ∧
      ((∀ x ∈ L, isNull x = false) → (∀ c ∈ cs, ∀ d ∈ c.data, isNull d = false) →
        as = (runKeys cmp INT_MAX L cs).1) ∧
      Shape p' (runKeys cmp INT_MAX L cs).2 t' ∧ Keys.Sorted cmp (runKeys cmp INT_MAX L cs).2 := by
  induction cs generalizing t p L with
  | nil => exact ⟨[], t, p, rfl, fun _ _ => rfl, ht, hs⟩
  | cons c cs ih =>
    obtain ⟨a, t₁, p₁, hexec, -, hanswer, ht₁⟩ := exec_eq isNull INT_MAX h c ht hs
    obtain ⟨as, t', p', hrun, hanswers, ht', hs'⟩ := ih ht₁ (sorted_execKeys INT_MAX h c hs)
    refine ⟨a :: as, t', p', ?_, fun hL hcs => ?_, ht', hs'⟩
    · rw [run, hexec]
      simp only [Option.bind_eq_bind, Option.bind_some, hrun]
    · obtain ⟨hc, hcs⟩ := List.forall_mem_cons.1 hcs
      have hL' : ∀ x ∈ (execKeys cmp INT_MAX L c).2, isNull x = false := fun x hx =>
        (mem_of_mem_execKeys hx).elim (hc x) (hL x)
      rw [hanswer hL, hanswers hL' hcs]
      rfl

/-- The tree is a sorted set, for data none of which is `NULL`. -/
theorem run_eq_runKeys (h : Compares cmp) (cs : List (Call D τ))
    (hnull : ∀ c ∈ cs, ∀ d ∈ c.data, isNull d = false) :
    ∃ t, run cmp isNull INT_MAX null cs = some ((runKeys cmp INT_MAX [] cs).1, t) ∧
      toList t = (runKeys cmp INT_MAX [] cs).2 ∧ Keys.Sorted cmp (toList t) ∧ Avl t := by
  obtain ⟨as, t, p, hrun, hanswers, ht, hs⟩ := run_shape isNull INT_MAX h cs .null .nil
  rw [hanswers (fun _ hx => absurd hx List.not_mem_nil) hnull] at hrun
  refine ⟨t, hrun, ht.toList, ?_, ht.avl⟩
  rw [ht.toList]
  exact hs

end

theorem compares_sub : Compares fun a b : ℤ => a - b where
  flip := by omega
  trans := by omega

def fiveKeys : List (Call ℤ ℕ) :=
  [.insert 1 true, .insert 2 true, .insert 3 true, .insert 5 false, .replace 2 true, .insert 4 true, .delete 2,
    .findGe 2, .count]

theorem run_eq_runKeys_fiveKeys : ∃ t, run (fun a b : ℤ => a - b) (fun d => d = 0) 2147483647 null fiveKeys = some
    ([.result 1 none, .result 1 none, .result 1 none, .result (-12) none, .result 0 (some 2), .result 1 none,
      .result 1 (some 2), .found (some 3), .counted (some 3)], t) ∧
    toList t = [1, 3, 4] ∧ Keys.Sorted (fun a b : ℤ => a - b) (toList t) ∧ Avl t := by
  have hkeys : runKeys (fun a b : ℤ => a - b) 2147483647 [] fiveKeys =
    ([.result 1 none, .result 1 none, .result 1 none, .result (-12) none, .result 0 (some 2), .result 1 none,
      .result 1 (some 2), .found (some 3), .counted (some 3)], [1, 3, 4]) := rfl
  have hrun := run_eq_runKeys (fun d => d = 0) 2147483647 compares_sub fiveKeys (by decide)
  rwa [hkeys] at hrun

section
variable (isNull : D → Bool) (INT_MAX : ℕ)

/-- `avl_tree_depth` counts the levels, and a tree of depth `n` has at least `fib (n + 2) - 1` elements. -/
theorem run_depth (h : Compares cmp) (cs : List (Call D τ)) : ∃ res, run cmp isNull INT_MAX null cs = some res ∧
    depth res.2 = height res.2 ∧ Nat.fib (depth res.2 + 2) ≤ (toList res.2).length + 1 := by
  obtain ⟨as, t, p, hrun, -, ht, -⟩ := run_shape isNull INT_MAX h cs .null .nil
  refine ⟨_, hrun, depth_eq ht.avl, ?_⟩
  rw [depth_eq ht.avl]
  exact fib_le ht.avl

end

theorem run_depth_fiveKeys :
    ∃ res, run (fun a b : ℤ => a - b) (fun d => d = 0) 2147483647 null fiveKeys = some res ∧
      depth res.2 = height res.2 ∧ Nat.fib (depth res.2 + 2) ≤ (toList res.2).length + 1 :=
  run_depth _ _ compares_sub fiveKeys

/-! ### What is freed -/

/-- The data the tree takes over with a call. -/
def taken : Call D τ → Answer D τ → List D
  | .insert d _, .result n _ => if n = 1 then [d] else []
  | .replace d _, .result n _ => if 0 ≤ n then [d] else []
  | _, _ => []

def freed : Answer D τ → List D
  | .result _ d => d.toList
  | _ => []

theorem destroy_perm (t : AVLTreeNode D) : (destroy t).Perm (toList t) := by
  induction t with
  | null => exact .nil
  | node l x b r ihl ihr =>
    unfold destroy toList
    rw [List.append_assoc]
    exact ihl.append ((List.perm_append_singleton x _).trans (ihr.cons x))

theorem set_perm_of_find_none {d : D} {L : List D} (hfind : Keys.find cmp d L = none) :
    (Keys.set cmp d L).Perm (d :: L) := by
  have hne : ∀ a ∈ L, cmp a d ≠ 0 := fun a ha h₀ => List.find?_eq_none.1 hfind a ha (decide_eq_true h₀)
  have hafter : Keys.after cmp d L = L.filter fun a => !decide (cmp a d < 0) := by
    refine List.filter_congr fun a ha => ?_
    have := hne a ha
    rw [← decide_not, decide_eq_decide]
    omega
  unfold Keys.set
  rw [hafter]
  exact List.perm_middle.trans ((List.filter_append_perm _ L).cons d)

theorem putKeys_perm (h : Compares cmp) (replacing granted : Bool) (d : D) {L : List D} (hs : Keys.Sorted cmp L) :
    ((putKeys cmp replacing granted d L).2.2.toList ++ (putKeys cmp replacing granted d L).1).Perm
      ((if replacing then if 0 ≤ (putKeys cmp replacing granted d L).2.1 then [d] else []
        else if (putKeys cmp replacing granted d L).2.1 = 1 then [d] else []) ++ L) := by
  unfold putKeys
  rcases hfind : Keys.find cmp d L with _ | x
  · rcases granted with _ | _ <;> rcases replacing with _ | _
    · exact .refl L
    · exact .refl L
    · exact set_perm_of_find_none hfind
    · exact set_perm_of_find_none hfind
  · rcases replacing with _ | _
    · exact .refl L
    · obtain ⟨hx, l, r, rfl, -⟩ := List.find?_eq_some_iff_append.1 hfind
      have hset := Keys.set_append_at h hs (of_decide_eq_true hx)
      show (x :: Keys.set cmp d (l ++ x :: r)).Perm (d :: (l ++ x :: r))
      rw [hset]
      exact (List.perm_middle.cons x).trans ((List.Perm.swap d x _).trans (List.perm_middle.symm.cons d))

theorem erase_perm (h : Compares cmp) (d : D) {L : List D} (hs : Keys.Sorted cmp L) :
    ((Keys.find cmp d L).toList ++ Keys.erase cmp d L).Perm L := by
  rcases hfind : Keys.find cmp d L with _ | x
  · have herase : Keys.erase cmp d L = L := by
      refine List.filter_eq_self.2 fun a ha => decide_eq_true fun h₀ => ?_
      exact List.find?_eq_none.1 hfind a ha (decide_eq_true h₀)
    rw [herase]
    exact .refl L
  · obtain ⟨hx, l, r, rfl, -⟩ := List.find?_eq_some_iff_append.1 hfind
    rw [Keys.erase_append_at h hs (of_decide_eq_true hx)]
    show (x :: (l ++ r)).Perm (l ++ x :: r)
    exact List.perm_middle.symm

theorem execKeys_perm (INT_MAX : ℕ) (h : Compares cmp) (c : Call D τ) {L : List D} (hs : Keys.Sorted cmp L) :
    (freed (execKeys cmp INT_MAX L c).1 ++ (execKeys cmp INT_MAX L c).2).Perm
      (taken c (execKeys cmp INT_MAX L c).1 ++ L) := by
  cases c with
  | insert d granted => exact putKeys_perm h false granted d hs
  | replace d granted => exact putKeys_perm h true granted d hs
  | delete d => exact erase_perm h d hs
  | find d => exact .refl L
  | findGe d => exact .refl L
  | walk op args => exact .refl L
  | count => exact .refl L

theorem freed_eq_of_outcome {a a' : Answer D τ} (h : a.outcome = a'.outcome) : freed a = freed a' := by
  cases a <;> cases a' <;> simp_all [Answer.outcome, freed]

theorem taken_eq_of_outcome (c : Call D τ) {a a' : Answer D τ} (h : a.outcome = a'.outcome) :
    taken c a = taken c a' := by
  cases a <;> cases a' <;> simp_all [Answer.outcome, taken]

section
variable (isNull : D → Bool) (INT_MAX : ℕ)

theorem run_perm (h : Compares cmp) (cs : List (Call D τ)) {t t' : AVLTreeNode D} {p : ℕ} {L : List D}
    (ht : Shape p L t) (hs : Keys.Sorted cmp L) {as : List (Answer D τ)}
    (hrun : run cmp isNull INT_MAX t cs = some (as, t')) :
    (as.flatMap freed ++ toList t').Perm ((cs.zip as).flatMap (fun s => taken s.1 s.2) ++ L) := by
  induction cs generalizing t t' p L as with
  | nil =>
    obtain ⟨rfl, rfl⟩ := Prod.mk.inj (Option.some.inj hrun)
    rw [ht.toList]
    exact .refl L
  | cons c cs ih =>
    obtain ⟨a, t₁, p₁, hexec, houtcome, -, ht₁⟩ := exec_eq isNull INT_MAX h c ht hs
    rw [run, hexec] at hrun
    simp only [Option.bind_eq_bind, Option.bind_some] at hrun
    obtain ⟨⟨as, t'⟩, hruns, heq⟩ := Option.bind_eq_some_iff.1 hrun
    obtain ⟨rfl, rfl⟩ := Prod.mk.inj (Option.some.inj heq)
    have hrest := ih ht₁ (sorted_execKeys INT_MAX h c hs) hruns
    have hstep := execKeys_perm INT_MAX h c hs
    rw [← freed_eq_of_outcome houtcome, ← taken_eq_of_outcome c houtcome] at hstep
    rw [List.zip_cons_cons, List.flatMap_cons, List.flatMap_cons, List.append_assoc, List.append_assoc]
    refine (hrest.append_left _).trans ?_
    rw [← List.append_assoc, ← List.append_assoc]
    refine (List.perm_append_comm.append_right _).trans ?_
    rw [List.append_assoc]
    refine (hstep.append_left _).trans ?_
    rw [← List.append_assoc]
    exact List.perm_append_comm.append_right L

/-- Everything the tree takes over is freed once: by a call, or in the end by `avl_tree_destroy`. -/
theorem run_frees_once (h : Compares cmp) (cs : List (Call D τ)) : ∃ res, run cmp isNull INT_MAX null cs = some res ∧
    (res.1.flatMap freed ++ destroy res.2).Perm ((cs.zip res.1).flatMap fun s => taken s.1 s.2) := by
  obtain ⟨as, t, -, hrun, -⟩ := run_shape isNull INT_MAX h cs .null .nil
  refine ⟨_, hrun, ?_⟩
  have hperm := run_perm isNull INT_MAX h cs .null .nil hrun
  rw [List.append_nil] at hperm
  exact ((destroy_perm t).append_left _).trans hperm

end

theorem run_frees_once_fiveKeys :
    ∃ res, run (fun a b : ℤ => a - b) (fun d => d = 0) 2147483647 null fiveKeys = some res ∧
      (res.1.flatMap freed ++ destroy res.2).Perm ((fiveKeys.zip res.1).flatMap fun s => taken s.1 s.2) :=
  run_frees_once _ _ compares_sub fiveKeys

end CWorkspace.AVLTree
