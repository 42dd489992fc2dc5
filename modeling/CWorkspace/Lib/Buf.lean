import Mathlib.Data.List.Induction
import Mathlib.Data.Nat.Init

/-!
# Memory blocks with a record of their accesses

A block `Buf ι α` is handed out with arbitrary contents `stale` and remembers every store and every
recorded load, newest first, so that "was written", "is only read after it was written" and "every
store is below the capacity" are statements about one value. `storeAll` is a run of stores into
neighbouring cells.

`forLoop lo hi f` is the loop `for (i = lo; i < hi; i++)`, with its invariant rule.
-/

namespace CWorkspace

/-! ### Counting loops -/

def forLoop {σ : Type*} (lo hi : ℕ) (f : σ → ℕ → σ) (s : σ) : σ := (List.range' lo (hi - lo)).foldl f s

section
variable {σ : Type*} {lo hi : ℕ} {f : σ → ℕ → σ} {s : σ}

theorem forLoop_of_le (h : hi ≤ lo) : forLoop lo hi f s = s := by
  rw [forLoop, Nat.sub_eq_zero_of_le h]; rfl

theorem forLoop_succ (h : lo ≤ hi) : forLoop lo (hi + 1) f s = f (forLoop lo hi f s) hi := by
  rw [forLoop, Nat.succ_sub h, List.range'_concat, List.foldl_append, Nat.one_mul,
    Nat.add_sub_cancel' h]
  rfl

/-- The invariant rule: `P i` holds before the iteration with index `i`. -/
theorem forLoop_inv (P : ℕ → σ → Prop) (h : lo ≤ hi) (h0 : P lo s)
    (hf : ∀ i s, lo ≤ i → i < hi → P i s → P (i + 1) (f s i)) : P hi (forLoop lo hi f s) := by
  induction hi, h using Nat.le_induction with
  | base => rwa [forLoop_of_le (Nat.le_refl _)]
  | succ n hn ih =>
    rw [forLoop_succ hn]
    exact hf n _ hn n.lt_succ_self (ih fun i s hi hi' => hf i s hi (Nat.lt_succ_of_lt hi'))

theorem forLoop_congr {g : σ → ℕ → σ} (h : ∀ i s, lo ≤ i → i < hi → f s i = g s i) :
    forLoop lo hi f s = forLoop lo hi g s := by
  rcases Nat.le_total lo hi with hle | hle
  · induction hi, hle using Nat.le_induction with
    | base => rw [forLoop_of_le (Nat.le_refl _), forLoop_of_le (Nat.le_refl _)]
    | succ n hn ih =>
      rw [forLoop_succ hn, forLoop_succ hn, ih fun i s hi hi' => h i s hi (Nat.lt_succ_of_lt hi'),
        h n _ hn n.lt_succ_self]
  · rw [forLoop_of_le hle, forLoop_of_le hle]

theorem forLoop_stable (P : σ → Prop) (h0 : P s) (hf : ∀ i s, lo ≤ i → i < hi → P s → P (f s i)) :
    P (forLoop lo hi f s) := by
  rcases Nat.le_total lo hi with h | h
  · exact forLoop_inv (fun _ => P) h h0 hf
  · rwa [forLoop_of_le h]

end

/-! ### Blocks -/

structure Buf (ι α : Type*) where
  stale : ι → α
  writes : List (ι × α)
  reads : List ι

namespace Buf
variable {ι α : Type*}

def malloc (stale : ι → α) : Buf ι α := ⟨stale, [], []⟩

def store (b : Buf ι α) (i : ι) (a : α) : Buf ι α := { b with writes := (i, a) :: b.writes }

def stores (b : Buf ι α) : List (ι × α) := b.writes.reverse

def Written (b : Buf ι α) (i : ι) : Prop := i ∈ b.writes.map Prod.fst

theorem written_store (b : Buf ι α) (i j : ι) (a : α) : (b.store i a).Written j ↔ j = i ∨ b.Written j :=
  List.mem_cons

theorem stores_store (b : Buf ι α) (i : ι) (a : α) : (b.store i a).stores = b.stores ++ [(i, a)] :=
  List.reverse_cons

@[simp] theorem malloc_writes (stale : ι → α) : (malloc stale).writes = [] := rfl
@[simp] theorem malloc_reads (stale : ι → α) : (malloc stale).reads = [] := rfl

variable [DecidableEq ι]

instance (b : Buf ι α) : DecidablePred b.Written := fun _ => inferInstanceAs (Decidable (_ ∈ _))

/-- The newest value stored at `i`, or what was there before the first store. -/
def get (b : Buf ι α) (i : ι) : α := (b.writes.lookup i).getD (b.stale i)

/-- A recorded load. -/
def load (b : Buf ι α) (i : ι) : α × Buf ι α := (b.get i, { b with reads := i :: b.reads })

@[simp] theorem load_fst (b : Buf ι α) (i : ι) : (b.load i).1 = b.get i := rfl
@[simp] theorem load_snd (b : Buf ι α) (i : ι) : (b.load i).2 = { b with reads := i :: b.reads } := rfl
@[simp] theorem get_malloc (stale : ι → α) (i : ι) : (malloc stale).get i = stale i := rfl

theorem get_reads (b : Buf ι α) (reads : List ι) (i : ι) : { b with reads := reads }.get i = b.get i := rfl

theorem get_store (b : Buf ι α) (i j : ι) (a : α) : (b.store i a).get j = if j = i then a else b.get j := by
  by_cases h : j = i
  · subst h; simp [get, store]
  · simp [get, store, List.lookup_cons, beq_eq_false_iff_ne.2 h, h]

theorem get_fill (b : Buf ℕ α) (f : ℕ → α) {n j : ℕ} (hj : j < n) :
    (forLoop 0 n (fun b i => b.store i (f i)) b).get j = f j := by
  refine forLoop_inv (fun i (b : Buf ℕ α) => ∀ j < i, b.get j = f j) (Nat.zero_le n)
    (fun j hj => absurd hj (Nat.not_lt_zero j)) ?_ j hj
  intro i b _ _ hb j hj
  rw [get_store]
  by_cases hji : j = i
  · rw [if_pos hji, hji]
  · rw [if_neg hji]; exact hb j (by omega)

end Buf

namespace Buf
variable {α : Type*}

/-- Stores `l` into the cells `i, i + 1, …`, one after the other. -/
def storeAll (b : Buf ℕ α) (i : ℕ) : List α → Buf ℕ α
  | [] => b
  | a :: l => (b.store i a).storeAll (i + 1) l

theorem storeAll_append (b : Buf ℕ α) (i : ℕ) (l l' : List α) :
    b.storeAll i (l ++ l') = (b.storeAll i l).storeAll (i + l.length) l' := by
  induction l generalizing b i with
  | nil => rfl
  | cons a l ih =>
    rw [List.cons_append, storeAll, ih, storeAll, List.length_cons, Nat.add_right_comm, Nat.add_assoc]

theorem storeAll_concat (b : Buf ℕ α) (i : ℕ) (l : List α) (a : α) :
    b.storeAll i (l ++ [a]) = (b.storeAll i l).store (i + l.length) a := storeAll_append b i l [a]

@[simp] theorem storeAll_reads (b : Buf ℕ α) (i : ℕ) (l : List α) : (b.storeAll i l).reads = b.reads := by
  induction l generalizing b i with
  | nil => rfl
  | cons a l ih => exact ih (b.store i a) (i + 1)

theorem stores_storeAll (b : Buf ℕ α) (i : ℕ) (l : List α) :
    (b.storeAll i l).stores = b.stores ++ (l.zipIdx i).map Prod.swap := by
  induction l generalizing b i with
  | nil => simp [storeAll]
  | cons a l ih => rw [storeAll, ih, stores, stores, store]; simp

theorem stores_storeAll_range (b : Buf ℕ α) (i k : ℕ) (f : ℕ → α) :
    (b.storeAll i ((List.range k).map f)).stores = b.stores ++ (List.range k).map fun j => (i + j, f j) := by
  induction k with
  | zero => exact (List.append_nil _).symm
  | succ k ih =>
    rw [List.range_succ, List.map_append, List.map_singleton, storeAll_concat, stores_store, ih, List.length_map,
      List.length_range, List.map_append, List.map_singleton, List.append_assoc]

theorem indices_storeAll (b : Buf ℕ α) (i : ℕ) (l : List α) :
    (b.storeAll i l).stores.map Prod.fst = b.stores.map Prod.fst ++ List.range' i l.length := by
  rw [stores_storeAll, List.map_append, List.map_map, ← List.zipIdx_map_snd i l]; rfl

theorem written_storeAll (b : Buf ℕ α) (i : ℕ) (l : List α) (j : ℕ) :
    (b.storeAll i l).Written j ↔ b.Written j ∨ i ≤ j ∧ j < i + l.length := by
  have h := indices_storeAll b i l
  rw [Written, ← List.mem_reverse, ← List.map_reverse, ← stores, h, List.mem_append, List.mem_range'_1,
    stores, List.map_reverse, List.mem_reverse]
  rfl

theorem written_malloc_storeAll (stale : ℕ → α) (l : List α) (j : ℕ) :
    ((malloc stale).storeAll 0 l).Written j ↔ j < l.length := by
  rw [written_storeAll]
  simp [Written]

theorem get_storeAll (b : Buf ℕ α) (i : ℕ) (l : List α) (j : ℕ) :
    (b.storeAll i l).get j = if j < i then b.get j else (l[j - i]?).getD (b.get j) := by
  induction l generalizing b i with
  | nil => simp [storeAll]
  | cons a l ih =>
    rw [storeAll, ih, get_store]
    rcases Nat.lt_trichotomy j i with hlt | rfl | hgt
    · rw [if_pos (by omega), if_neg (by omega), if_pos hlt]
    · simp
    · obtain ⟨m, rfl⟩ : ∃ m, j = i + 1 + m := ⟨j - i - 1, by omega⟩
      rw [if_neg (by omega), if_neg (by omega), if_neg (by omega), Nat.add_sub_cancel_left,
        show i + 1 + m - i = m + 1 by omega, List.getElem?_cons_succ]

end Buf

end CWorkspace
