import CWorkspace.AvlTree
import Mathlib.Data.Nat.Fib.Basic
import Mathlib.Tactic.SplitIfs

/-!
# Balance

In an `Avl` tree every node's `balance` is the difference of the heights under it and at most one off. What the
functions of `avl_tree.c` make of a subtree that has grown or shrunk by one: a tree with the same elements that
is `Avl` again, with the change of height their flag says, and without a dereference of `NULL`.
-/

namespace CWorkspace.AVLTree
open AVLTreeNode
variable {D : Type*}

def toList : AVLTreeNode D → List D
  | null => []
  | node l x _ r => toList l ++ x :: toList r

def height : AVLTreeNode D → ℕ
  | null => 0
  | node l _ _ r => max (height l) (height r) + 1

def balance : AVLTreeNode D → ℤ
  | null => 0
  | node _ _ b _ => b

def Avl : AVLTreeNode D → Prop
  | null => True
  | node l _ b r => Avl l ∧ Avl r ∧ (height r : ℤ) = height l + b ∧ -1 ≤ b ∧ b ≤ 1

theorem height_node (l r : AVLTreeNode D) (x : D) (b : ℤ) :
    height (node l x b r) = max (height l) (height r) + 1 := rfl

/-- An `Avl` tree of height `h` with the elements `L`. -/
structure Shape (h : ℕ) (L : List D) (t : AVLTreeNode D) : Prop where
  avl : Avl t
  height : height t = h
  toList : toList t = L

namespace Shape
variable {l r t : AVLTreeNode D} {x : D} {b : ℤ} {h p q : ℕ} {L M R : List D}

theorem null : Shape 0 [] (AVLTreeNode.null : AVLTreeNode D) := ⟨trivial, rfl, rfl⟩

theorem node (hl : Shape p L l) (hr : Shape q R r) (hb : (q : ℤ) = p + b) (hb₁ : -1 ≤ b ∧ b ≤ 1)
    (hh : h = max p q + 1) (hM : M = L ++ x :: R) : Shape h M (node l x b r) := by
  obtain ⟨hl, rfl, rfl⟩ := hl
  obtain ⟨hr, rfl, rfl⟩ := hr
  exact ⟨⟨hl, hr, hb, hb₁⟩, hh.symm, hM.symm⟩

theorem of_node (ht : Shape h L (AVLTreeNode.node l x b r)) : ∃ (p q : ℕ) (Ll Lr : List D), Shape p Ll l ∧
    Shape q Lr r ∧ (q : ℤ) = p + b ∧ (-1 ≤ b ∧ b ≤ 1) ∧ h = max p q + 1 ∧ L = Ll ++ x :: Lr := by
  obtain ⟨⟨hl, hr, hb, hb₁⟩, rfl, rfl⟩ := ht
  exact ⟨_, _, _, _, ⟨hl, rfl, rfl⟩, ⟨hr, rfl, rfl⟩, hb, hb₁, rfl, rfl⟩

theorem exists_node (ht : Shape h L t) (hh : 0 < h) : ∃ (l : AVLTreeNode D) (x : D) (b : ℤ) (r : AVLTreeNode D)
    (p q : ℕ) (Ll Lr : List D), t = AVLTreeNode.node l x b r ∧ Shape p Ll l ∧ Shape q Lr r ∧
      (q : ℤ) = p + b ∧ (-1 ≤ b ∧ b ≤ 1) ∧ h = max p q + 1 ∧ L = Ll ++ x :: Lr := by
  rcases t with _ | ⟨l, x, b, r⟩
  · exact absurd hh (Nat.not_lt.2 (Nat.le_of_eq ht.height.symm))
  · obtain ⟨p, q, Ll, Lr, hnode⟩ := ht.of_node
    exact ⟨l, x, b, r, p, q, Ll, Lr, rfl, hnode⟩

theorem isNull (ht : Shape h L t) (hn : t.isNull = true) : h = 0 ∧ L = [] := by
  rcases t with _ | ⟨l, x, b, r⟩
  · exact ⟨ht.height.symm, ht.toList.symm⟩
  · exact absurd hn Bool.false_ne_true

theorem pos_of_not_isNull (ht : Shape h L t) (hn : ¬ t.isNull = true) : 0 < h := by
  rcases t with _ | ⟨l, x, b, r⟩
  · exact absurd rfl hn
  · rw [← ht.height]
    exact Nat.succ_pos _

end Shape

variable {l r : AVLTreeNode D} {x : D} {b : ℤ} {p : ℕ} {L R : List D}

/-! ### Double rotations -/

theorem avlLeftRight_shape (hl : Shape (p + 2) L l) (hr : Shape p R r) (hb : balance l = 1) :
    ∃ t, avlLeftRight (node l x b r) = some t ∧ Shape (p + 2) (L ++ x :: R) t := by
  obtain ⟨ll, lx, lb, lr, pl, pr, Ll, Lr, rfl, hll, hlr, hbal, -, hh, rfl⟩ := hl.exists_node (by omega)
  obtain rfl : lb = 1 := hb
  obtain ⟨a, y, yb, c, pa, pc, La, Lc, rfl, ha, hc, hyb, hyb₁, hh', rfl⟩ := hlr.exists_node (by omega)
  have hlist : Ll ++ lx :: (La ++ y :: Lc) ++ x :: R = (Ll ++ lx :: La) ++ y :: (Lc ++ x :: R) := by simp
  rcases (by omega : yb = -1 ∨ yb = 0 ∨ yb = 1) with rfl | rfl | rfl
  · exact ⟨_, rfl, (hll.node ha (by omega) (by omega) rfl rfl).node (hc.node hr (by omega) (by omega) rfl rfl)
      (by omega) (by omega) (by omega) hlist⟩
  · exact ⟨_, rfl, (hll.node ha (by omega) (by omega) rfl rfl).node (hc.node hr (by omega) (by omega) rfl rfl)
      (by omega) (by omega) (by omega) hlist⟩
  · exact ⟨_, rfl, (hll.node ha (by omega) (by omega) rfl rfl).node (hc.node hr (by omega) (by omega) rfl rfl)
      (by omega) (by omega) (by omega) hlist⟩

theorem avlRightLeft_shape (hl : Shape p L l) (hr : Shape (p + 2) R r) (hb : balance r = -1) :
    ∃ t, avlRightLeft (node l x b r) = some t ∧ Shape (p + 2) (L ++ x :: R) t := by
  obtain ⟨rl, rx, rb, rr, pl, pr, Rl, Rr, rfl, hrl, hrr, hbal, -, hh, rfl⟩ := hr.exists_node (by omega)
  obtain rfl : rb = -1 := hb
  obtain ⟨a, y, yb, c, pa, pc, La, Lc, rfl, ha, hc, hyb, hyb₁, hh', rfl⟩ := hrl.exists_node (by omega)
  have hlist : L ++ x :: ((La ++ y :: Lc) ++ rx :: Rr) = (L ++ x :: La) ++ y :: (Lc ++ rx :: Rr) := by simp
  rcases (by omega : yb = -1 ∨ yb = 0 ∨ yb = 1) with rfl | rfl | rfl
  · exact ⟨_, rfl, (hl.node ha (by omega) (by omega) rfl rfl).node (hc.node hrr (by omega) (by omega) rfl rfl)
      (by omega) (by omega) (by omega) hlist⟩
  · exact ⟨_, rfl, (hl.node ha (by omega) (by omega) rfl rfl).node (hc.node hrr (by omega) (by omega) rfl rfl)
      (by omega) (by omega) (by omega) hlist⟩
  · exact ⟨_, rfl, (hl.node ha (by omega) (by omega) rfl rfl).node (hc.node hrr (by omega) (by omega) rfl rfl)
      (by omega) (by omega) (by omega) hlist⟩

/-! ### A subtree has grown -/

/-- The tree with its flag, from one of height `h`. -/
structure Grown (h : ℕ) (L : List D) (res : AVLTreeNode D × Bool) : Prop where
  shape : Shape (h + res.2.toNat) L res.1
  leans : res.2 = true → h = 0 ∨ balance res.1 ≠ 0

theorem avlLeftBalanceWhenInsert_grown (hl : Shape (p + 2) L l) (hr : Shape p R r) (hb : balance l ≠ 0) :
    ∃ res, avlLeftBalanceWhenInsert (node l x b r) = some res ∧ Grown (p + 2) (L ++ x :: R) res := by
  obtain ⟨ll, lx, lb, lr, pl, pr, Ll, Lr, rfl, hll, hlr, hbal, hb₁, hh, rfl⟩ := hl.exists_node (by omega)
  have hlb : lb ≠ 0 := hb
  unfold avlLeftBalanceWhenInsert
  rcases (by omega : lb = -1 ∨ lb = 1) with rfl | rfl
  · refine ⟨_, rfl, ?_, nofun⟩
    exact hll.node (hlr.node hr (by omega) (by omega) rfl rfl) (by omega) (by omega) (by simp; omega) (by simp)
  · obtain ⟨t, ht, hshape⟩ := avlLeftRight_shape (x := x) (b := b) hl hr rfl
    dsimp only
    rw [if_neg (by omega), if_neg (by omega), if_pos rfl, ht]
    exact ⟨_, rfl, hshape, nofun⟩

theorem avlRightBalanceWhenInsert_grown (hl : Shape p L l) (hr : Shape (p + 2) R r) (hb : balance r ≠ 0) :
    ∃ res, avlRightBalanceWhenInsert (node l x b r) = some res ∧ Grown (p + 2) (L ++ x :: R) res := by
  obtain ⟨rl, rx, rb, rr, pl, pr, Rl, Rr, rfl, hrl, hrr, hbal, hb₁, hh, rfl⟩ := hr.exists_node (by omega)
  have hrb : rb ≠ 0 := hb
  unfold avlRightBalanceWhenInsert
  rcases (by omega : rb = 1 ∨ rb = -1) with rfl | rfl
  · refine ⟨_, rfl, ?_, nofun⟩
    exact (hl.node hrl (by omega) (by omega) rfl rfl).node hrr (by omega) (by omega) (by simp; omega) (by simp)
  · obtain ⟨t, ht, hshape⟩ := avlRightLeft_shape (x := x) (b := b) hl hr rfl
    dsimp only
    rw [if_neg (by omega), if_neg (by omega), if_pos rfl, ht]
    exact ⟨_, rfl, hshape, nofun⟩

variable {q : ℕ}

theorem leftGrown_grown (hl : Shape (p + 1) L l) (hlean : p = 0 ∨ balance l ≠ 0) (hr : Shape q R r)
    (hb : (q : ℤ) = p + b) (hb₁ : -1 ≤ b ∧ b ≤ 1) :
    ∃ res, leftGrown (node l x b r) = some res ∧ Grown (max p q + 1) (L ++ x :: R) res := by
  unfold leftGrown
  rcases (by omega : b = -1 ∨ b = 0 ∨ b = 1) with rfl | rfl | rfl
  · obtain rfl : p = q + 1 := by omega
    obtain ⟨res, hres, hgrown⟩ := avlLeftBalanceWhenInsert_grown (x := x) (b := -1) hl hr (by omega)
    refine ⟨res, hres, ?_⟩
    rwa [show max (q + 1) q + 1 = q + 2 by omega]
  · refine ⟨_, rfl, hl.node hr (by omega) (by omega) (by simp; omega) rfl, fun _ => .inr ?_⟩
    show (-1 : ℤ) ≠ 0
    omega
  · exact ⟨_, rfl, hl.node hr (by omega) (by omega) (by simp; omega) rfl, nofun⟩

theorem rightGrown_grown (hl : Shape p L l) (hr : Shape (q + 1) R r) (hlean : q = 0 ∨ balance r ≠ 0)
    (hb : (q : ℤ) = p + b) (hb₁ : -1 ≤ b ∧ b ≤ 1) :
    ∃ res, rightGrown (node l x b r) = some res ∧ Grown (max p q + 1) (L ++ x :: R) res := by
  unfold rightGrown
  rcases (by omega : b = -1 ∨ b = 0 ∨ b = 1) with rfl | rfl | rfl
  · exact ⟨_, rfl, hl.node hr (by omega) (by omega) (by simp; omega) rfl, nofun⟩
  · refine ⟨_, rfl, hl.node hr (by omega) (by omega) (by simp; omega) rfl, fun _ => .inr ?_⟩
    show (1 : ℤ) ≠ 0
    omega
  · obtain rfl : q = p + 1 := by omega
    obtain ⟨res, hres, hgrown⟩ := avlRightBalanceWhenInsert_grown (x := x) (b := 1) hl hr (by omega)
    refine ⟨res, hres, ?_⟩
    rwa [show max p (p + 1) + 1 = p + 2 by omega]

theorem leftGrown_of_grown {res : AVLTreeNode D × Bool} (hl : Grown p L res) (hr : Shape q R r)
    (hb : (q : ℤ) = p + b) (hb₁ : -1 ≤ b ∧ b ≤ 1) :
    ∃ top, ifSet res.2 leftGrown (node res.1 x b r) = some top ∧ Grown (max p q + 1) (L ++ x :: R) top := by
  obtain ⟨t, taller⟩ := res
  rcases taller with _ | _
  · exact ⟨_, rfl, hl.shape.node hr hb hb₁ rfl rfl, nofun⟩
  · exact leftGrown_grown hl.shape (hl.leans rfl) hr hb hb₁

theorem rightGrown_of_grown {res : AVLTreeNode D × Bool} (hl : Shape p L l) (hr : Grown q R res)
    (hb : (q : ℤ) = p + b) (hb₁ : -1 ≤ b ∧ b ≤ 1) :
    ∃ top, ifSet res.2 rightGrown (node l x b res.1) = some top ∧ Grown (max p q + 1) (L ++ x :: R) top := by
  obtain ⟨t, taller⟩ := res
  rcases taller with _ | _
  · exact ⟨_, rfl, hl.node hr.shape hb hb₁ rfl rfl, nofun⟩
  · exact rightGrown_grown hl hr.shape (hr.leans rfl) hb hb₁

/-! ### A subtree has shrunk -/

def Shrunk (h : ℕ) (L : List D) (res : AVLTreeNode D × Bool) : Prop :=
  ∃ p, h = p + res.2.toNat ∧ Shape p L res.1

theorem avlLeftBalanceWhenDelete_shrunk (hl : Shape (p + 2) L l) (hr : Shape p R r) :
    ∃ res, avlLeftBalanceWhenDelete (node l x (-1) r) = some res ∧ Shrunk (p + 3) (L ++ x :: R) res := by
  obtain ⟨ll, lx, lb, lr, pl, pr, Ll, Lr, rfl, hll, hlr, hbal, hb₁, hh, rfl⟩ := hl.exists_node (by omega)
  unfold avlLeftBalanceWhenDelete
  rcases (by omega : lb = -1 ∨ lb = 0 ∨ lb = 1) with rfl | rfl | rfl
  · refine ⟨_, rfl, p + 2, rfl, ?_⟩
    exact hll.node (hlr.node hr (by omega) (by omega) rfl rfl) (by omega) (by omega) (by omega) (by simp)
  · refine ⟨_, rfl, p + 3, rfl, ?_⟩
    exact hll.node (hlr.node hr (by omega) (by omega) rfl rfl) (by omega) (by omega) (by omega) (by simp)
  · obtain ⟨t, ht, hshape⟩ := avlLeftRight_shape (x := x) (b := -1) hl hr rfl
    dsimp only
    rw [if_neg (by omega), if_neg (by omega), if_pos rfl, ht]
    exact ⟨_, rfl, p + 2, rfl, hshape⟩

theorem avlRightBalanceWhenDelete_shrunk (hl : Shape p L l) (hr : Shape (p + 2) R r) :
    ∃ res, avlRightBalanceWhenDelete (node l x 1 r) = some res ∧ Shrunk (p + 3) (L ++ x :: R) res := by
  obtain ⟨rl, rx, rb, rr, pl, pr, Rl, Rr, rfl, hrl, hrr, hbal, hb₁, hh, rfl⟩ := hr.exists_node (by omega)
  unfold avlRightBalanceWhenDelete
  rcases (by omega : rb = 1 ∨ rb = 0 ∨ rb = -1) with rfl | rfl | rfl
  · refine ⟨_, rfl, p + 2, rfl, ?_⟩
    exact (hl.node hrl (by omega) (by omega) rfl rfl).node hrr (by omega) (by omega) (by omega) (by simp)
  · refine ⟨_, rfl, p + 3, rfl, ?_⟩
    exact (hl.node hrl (by omega) (by omega) rfl rfl).node hrr (by omega) (by omega) (by omega) (by simp)
  · obtain ⟨t, ht, hshape⟩ := avlRightLeft_shape (x := x) (b := 1) hl hr rfl
    dsimp only
    rw [if_neg (by omega), if_neg (by omega), if_pos rfl, ht]
    exact ⟨_, rfl, p + 2, rfl, hshape⟩

theorem leftShrunk_shrunk (hl : Shape p L l) (hr : Shape q R r) (hb : (q : ℤ) = (p + 1 : ℕ) + b)
    (hb₁ : -1 ≤ b ∧ b ≤ 1) :
    ∃ res, leftShrunk (node l x b r) = some res ∧ Shrunk (max (p + 1) q + 1) (L ++ x :: R) res := by
  unfold leftShrunk
  rcases (by omega : b = -1 ∨ b = 0 ∨ b = 1) with rfl | rfl | rfl
  · exact ⟨_, rfl, p + 1, by simp; omega, hl.node hr (by omega) (by omega) (by omega) rfl⟩
  · exact ⟨_, rfl, p + 2, by simp; omega, hl.node hr (by omega) (by omega) (by omega) rfl⟩
  · obtain rfl : q = p + 2 := by omega
    obtain ⟨res, hres, hshrunk⟩ := avlRightBalanceWhenDelete_shrunk (x := x) hl hr
    refine ⟨res, hres, ?_⟩
    rwa [show max (p + 1) (p + 2) + 1 = p + 3 by omega]

theorem rightShrunk_shrunk (hl : Shape p L l) (hr : Shape q R r) (hb : ((q + 1 : ℕ) : ℤ) = p + b)
    (hb₁ : -1 ≤ b ∧ b ≤ 1) :
    ∃ res, rightShrunk (node l x b r) = some res ∧ Shrunk (max p (q + 1) + 1) (L ++ x :: R) res := by
  unfold rightShrunk
  rcases (by omega : b = -1 ∨ b = 0 ∨ b = 1) with rfl | rfl | rfl
  · obtain rfl : p = q + 2 := by omega
    obtain ⟨res, hres, hshrunk⟩ := avlLeftBalanceWhenDelete_shrunk (x := x) hl hr
    refine ⟨res, hres, ?_⟩
    rwa [show max (q + 2) (q + 1) + 1 = q + 3 by omega]
  · exact ⟨_, rfl, q + 2, by simp; omega, hl.node hr (by omega) (by omega) (by omega) rfl⟩
  · exact ⟨_, rfl, q + 1, by simp; omega, hl.node hr (by omega) (by omega) (by omega) rfl⟩

theorem leftShrunk_of_shrunk {res : AVLTreeNode D × Bool} (hl : Shrunk p L res) (hr : Shape q R r)
    (hb : (q : ℤ) = p + b) (hb₁ : -1 ≤ b ∧ b ≤ 1) :
    ∃ top, ifSet res.2 leftShrunk (node res.1 x b r) = some top ∧ Shrunk (max p q + 1) (L ++ x :: R) top := by
  obtain ⟨t, shorter⟩ := res
  obtain ⟨p', rfl, hl⟩ := hl
  rcases shorter with _ | _
  · exact ⟨_, rfl, _, rfl, hl.node hr hb hb₁ rfl rfl⟩
  · exact leftShrunk_shrunk hl hr hb hb₁

theorem rightShrunk_of_shrunk {res : AVLTreeNode D × Bool} (hl : Shape p L l) (hr : Shrunk q R res)
    (hb : (q : ℤ) = p + b) (hb₁ : -1 ≤ b ∧ b ≤ 1) :
    ∃ top, ifSet res.2 rightShrunk (node l x b res.1) = some top ∧ Shrunk (max p q + 1) (L ++ x :: R) top := by
  obtain ⟨t, shorter⟩ := res
  obtain ⟨q', rfl, hr⟩ := hr
  rcases shorter with _ | _
  · exact ⟨_, rfl, _, rfl, hl.node hr hb hb₁ rfl rfl⟩
  · exact rightShrunk_shrunk hl hr hb hb₁

/-! ### Depth -/

theorem depth_eq {t : AVLTreeNode D} (ht : Avl t) : depth t = height t := by
  induction t with
  | null => rfl
  | node l x b r ihl ihr =>
    obtain ⟨hl, hr, hb, hb₁⟩ := ht
    unfold depth height
    split_ifs with hlean
    · rw [ihl hl]
      omega
    · rw [ihr hr]
      omega

/-- A balanced tree of height `h` has at least as many elements as a Fibonacci tree. -/
theorem fib_le {t : AVLTreeNode D} (ht : Avl t) : Nat.fib (height t + 2) ≤ (toList t).length + 1 := by
  induction t with
  | null => exact Nat.le_refl 1
  | node l x b r ihl ihr =>
    obtain ⟨hl, hr, hb, hb₁⟩ := ht
    have hl' := ihl hl
    have hr' := ihr hr
    obtain ⟨m, hm, hle⟩ : ∃ m, height (node l x b r) = m + 1 ∧
        Nat.fib (m + 2) + Nat.fib (m + 1) ≤ Nat.fib (height l + 2) + Nat.fib (height r + 2) := by
      rcases (by omega : height l ≤ height r ∨ height r ≤ height l) with hle | hle
      · refine ⟨height r, by rw [height_node]; omega, ?_⟩
        have := Nat.fib_mono (show height r + 1 ≤ height l + 2 by omega)
        omega
      · refine ⟨height l, by rw [height_node]; omega, ?_⟩
        have := Nat.fib_mono (show height l + 1 ≤ height r + 2 by omega)
        omega
    have hfib : Nat.fib (m + 3) = Nat.fib (m + 1) + Nat.fib (m + 2) := Nat.fib_add_two
    rw [hm]
    unfold toList
    rw [List.length_append, List.length_cons]
    show Nat.fib (m + 3) ≤ _
    omega

end CWorkspace.AVLTree
