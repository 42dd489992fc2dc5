import CWorkspace.Lib.Buf

/-!
# Blocks of memory with their size

A `Block` is a piece of memory with the size it was allocated with, and `Safe` says that every access recorded
in it lies inside. `Painted` is what a run of stores into neighbouring cells leaves, and `whileLoop` the loop
such runs are made by.
-/

namespace CWorkspace

/-! ### Loops -/

/-- `while (cond) body`, for `fuel` rounds at most. -/
def whileLoop {σ : Type*} (cond : σ → Bool) (body : σ → σ) : ℕ → σ → σ
  | 0, s => s
  | fuel + 1, s => if cond s then whileLoop cond body fuel (body s) else s

/-- The invariant rule: with a measure that goes down and fuel for all of it, the loop comes to its end. -/
theorem whileLoop_inv {σ : Type*} {cond : σ → Bool} {body : σ → σ} {P : σ → Prop} {m : σ → ℕ}
    (hbody : ∀ s, P s → cond s = true → P (body s) ∧ m (body s) < m s) {fuel : ℕ} {s : σ}
    (hfuel : m s ≤ fuel) (h : P s) :
    P (whileLoop cond body fuel s) ∧ cond (whileLoop cond body fuel s) = false := by
  induction fuel generalizing s with
  | zero =>
    refine ⟨h, ?_⟩
    rcases hcond : cond s with _ | _
    · exact hcond
    · have := (hbody s h hcond).2
      omega
  | succ fuel ih =>
    unfold whileLoop
    rcases hcond : cond s with _ | _
    · rw [if_neg Bool.false_ne_true]
      exact ⟨h, hcond⟩
    · obtain ⟨hP, hlt⟩ := hbody s h hcond
      rw [if_pos rfl]
      exact ih (by omega) hP

/-- `while (cond) body` where the condition changes the state. -/
def whileEval {σ : Type*} (cond : σ → Bool × σ) (body : σ → σ) : ℕ → σ → σ
  | 0, s => (cond s).2
  | fuel + 1, s => if (cond s).1 then whileEval cond body fuel (body (cond s).2) else (cond s).2

theorem whileEval_of_false {σ : Type*} {cond : σ → Bool × σ} {s : σ} (h : (cond s).1 = false) (body : σ → σ)
    (fuel : ℕ) : whileEval cond body fuel s = (cond s).2 := by
  rcases fuel with _ | fuel
  · rfl
  · rw [whileEval, h]
    exact if_neg Bool.false_ne_true

theorem whileEval_stable {σ : Type*} {cond : σ → Bool × σ} {body : σ → σ} {P : σ → Prop}
    (hcond : ∀ s, P s → P (cond s).2) (hbody : ∀ s, P s → P (body s)) (fuel : ℕ) {s : σ} (h : P s) :
    P (whileEval cond body fuel s) := by
  induction fuel generalizing s with
  | zero => exact hcond s h
  | succ fuel ih =>
    unfold whileEval
    split_ifs
    · exact ih (hbody _ (hcond s h))
    · exact hcond s h

theorem whileEval_inv {σ : Type*} {cond : σ → Bool × σ} {body : σ → σ} {P : σ → Prop} {m : σ → ℕ}
    (hbody : ∀ s, P s → (cond s).1 = true → P (body (cond s).2) ∧ m (body (cond s).2) < m s) {fuel : ℕ} {s : σ}
    (hfuel : m s ≤ fuel) (h : P s) :
    ∃ s', P s' ∧ (cond s').1 = false ∧ whileEval cond body fuel s = (cond s').2 := by
  induction fuel generalizing s with
  | zero =>
    refine ⟨s, h, ?_, rfl⟩
    rcases hcond : (cond s).1 with _ | _
    · rfl
    · have := (hbody s h hcond).2
      omega
  | succ fuel ih =>
    unfold whileEval
    rcases hcond : (cond s).1 with _ | _
    · rw [if_neg Bool.false_ne_true]
      exact ⟨s, h, hcond, rfl⟩
    · obtain ⟨hP, hlt⟩ := hbody s h hcond
      rw [if_pos rfl]
      exact ih (by omega) hP

/-! ### Blocks -/

structure Block (α : Type*) where
  size : ℕ
  cells : Buf ℤ α

namespace Block
variable {α : Type*}

def malloc (size : ℕ) (stale : ℤ → α) : Block α := ⟨size, Buf.malloc stale⟩

def store (b : Block α) (i : ℤ) (a : α) : Block α := { b with cells := b.cells.store i a }

def get (b : Block α) (i : ℤ) : α := b.cells.get i

def load (b : Block α) (i : ℤ) : α × Block α := (b.get i, { b with cells := (b.cells.load i).2 })

def realloc (b : Block α) (size : ℕ) : Block α := { b with size := size }

/-- Stores `l` into the cells from `i` on. -/
def storeAll (b : Block α) (i : ℤ) : List α → Block α
  | [] => b
  | a :: l => (b.store i a).storeAll (i + 1) l

structure Safe (b : Block α) : Prop where
  writes : ∀ i, b.cells.Written i → 0 ≤ i ∧ i < b.size
  reads : ∀ i ∈ b.cells.reads, 0 ≤ i ∧ i < b.size

@[simp] theorem store_size (b : Block α) (i : ℤ) (a : α) : (b.store i a).size = b.size := rfl
@[simp] theorem load_fst (b : Block α) (i : ℤ) : (b.load i).1 = b.get i := rfl
@[simp] theorem load_size (b : Block α) (i : ℤ) : (b.load i).2.size = b.size := rfl
@[simp] theorem get_load (b : Block α) (i j : ℤ) : (b.load i).2.get j = b.get j := rfl

theorem get_store (b : Block α) (i j : ℤ) (a : α) : (b.store i a).get j = if j = i then a else b.get j :=
  Buf.get_store b.cells i j a

theorem safe_malloc (size : ℕ) (stale : ℤ → α) : (malloc size stale).Safe :=
  ⟨fun _ h => absurd h List.not_mem_nil, fun _ h => absurd h List.not_mem_nil⟩

theorem Safe.store {b : Block α} (h : b.Safe) {i : ℤ} (hi : 0 ≤ i ∧ i < b.size) (a : α) : (b.store i a).Safe := by
  refine ⟨fun j hj => ?_, h.reads⟩
  rcases (Buf.written_store _ _ _ _).1 hj with rfl | hj
  · exact hi
  · exact h.writes j hj

theorem Safe.load {b : Block α} (h : b.Safe) {i : ℤ} (hi : 0 ≤ i ∧ i < b.size) : (b.load i).2.Safe := by
  refine ⟨h.writes, fun j hj => ?_⟩
  rcases List.mem_cons.1 hj with rfl | hj
  · exact hi
  · exact h.reads j hj

/-- `b` after loads from `b₀`. -/
structure Loaded (b₀ b : Block α) : Prop where
  size : b.size = b₀.size
  writes : b.cells.writes = b₀.cells.writes
  get : ∀ i, b.get i = b₀.get i

theorem Loaded.refl (b : Block α) : Loaded b b := ⟨rfl, rfl, fun _ => rfl⟩

theorem Loaded.trans {b₀ b₁ b₂ : Block α} (h₁ : Loaded b₀ b₁) (h₂ : Loaded b₁ b₂) : Loaded b₀ b₂ :=
  ⟨h₂.size.trans h₁.size, h₂.writes.trans h₁.writes, fun i => (h₂.get i).trans (h₁.get i)⟩

theorem Loaded.load {b₀ b : Block α} (h : Loaded b₀ b) (i : ℤ) : Loaded b₀ (b.load i).2 :=
  ⟨h.size, h.writes, h.get⟩

theorem Loaded.written {b₀ b : Block α} (h : Loaded b₀ b) (i : ℤ) : b.cells.Written i ↔ b₀.cells.Written i := by
  unfold Buf.Written
  rw [h.writes]

/-- `n` cells of `b` from `base` on hold `f`, stored since `b₀`; the others are as they were. -/
structure Painted (b₀ b : Block α) (base : ℤ) (n : ℕ) (f : ℕ → α) : Prop where
  size : b.size = b₀.size
  reads : b.cells.reads = b₀.cells.reads
  get : ∀ i, b.get i = if base ≤ i ∧ i < base + n then f (i - base).toNat else b₀.get i
  written : ∀ i, b.cells.Written i ↔ (base ≤ i ∧ i < base + n) ∨ b₀.cells.Written i

namespace Painted
variable {b₀ b b' : Block α} {base : ℤ} {n : ℕ} {f : ℕ → α}

theorem zero (b : Block α) (base : ℤ) (f : ℕ → α) : Painted b b base 0 f := by
  have hnone : ∀ i, ¬ (base ≤ i ∧ i < base + (0 : ℕ)) := fun i => by omega
  exact ⟨rfl, rfl, fun i => (if_neg (hnone i)).symm, fun i => (or_iff_right (hnone i)).symm⟩

theorem store (h : Painted b₀ b base n f) {a : α} (ha : f n = a) :
    Painted b₀ (b.store (base + n) a) base (n + 1) f := by
  refine ⟨h.size, h.reads, fun i => ?_, fun i => ?_⟩
  · rw [get_store, h.get]
    by_cases hi : i = base + n
    · subst hi
      rw [if_pos rfl, if_pos (by omega), ← ha]
      congr 1
      omega
    · rw [if_neg hi]
      exact if_congr (by omega) rfl rfl
  · show (b.cells.store (base + n) a).Written i ↔ _
    rw [Buf.written_store, h.written, ← or_assoc]
    exact or_congr_left (by omega)

theorem congr (h : Painted b₀ b base n f) {f' : ℕ → α} (hf : ∀ j < n, f j = f' j) : Painted b₀ b base n f' := by
  refine ⟨h.size, h.reads, fun i => ?_, h.written⟩
  rw [h.get]
  split_ifs with hi
  · exact hf _ (by omega)
  · rfl

theorem get_of_lt (h : Painted b₀ b base n f) {j : ℕ} (hj : j < n) : b.get (base + j) = f j := by
  rw [h.get, if_pos (by omega)]
  congr 1
  omega

theorem safe (h : Painted b₀ b base n f) (h₀ : b₀.Safe) (hbase : 0 ≤ base) (hend : base + n ≤ b₀.size) :
    b.Safe := by
  refine ⟨fun i hi => ?_, fun i hi => ?_⟩
  · rw [h.size]
    rcases (h.written i).1 hi with hi | hi
    · omega
    · exact h₀.writes i hi
  · rw [h.size]
    exact h₀.reads i (h.reads ▸ hi)

end Painted

theorem painted_storeAll (b : Block α) (i : ℤ) (l : List α) (d : α) :
    Painted b (b.storeAll i l) i l.length fun j => l.getD j d := by
  suffices h : ∀ (l' l : List α) (b' : Block α), Painted b b' i l'.length (fun j => (l' ++ l).getD j d) →
      Painted b (b'.storeAll (i + l'.length) l) i (l' ++ l).length fun j => (l' ++ l).getD j d by
    have hall := h [] l b (Painted.zero b i _)
    rw [List.length_nil, Int.natCast_zero, Int.add_zero] at hall
    exact hall
  intro l' l
  induction l generalizing l' with
  | nil =>
    intro b' hb
    rw [List.append_nil] at hb ⊢
    exact hb
  | cons a l ih =>
    intro b' hb
    have hstore := hb.store (a := a) (by simp)
    have hrest := ih (l' ++ [a]) (b'.store (i + l'.length) a) (by simpa using hstore)
    rw [storeAll]
    simpa [Int.add_assoc] using hrest

theorem storeAll_append (b : Block α) (i : ℤ) (l l' : List α) :
    b.storeAll i (l ++ l') = (b.storeAll i l).storeAll (i + l.length) l' := by
  induction l generalizing b i with
  | nil => rw [List.nil_append, List.length_nil, Int.natCast_zero, Int.add_zero]; rfl
  | cons a l ih =>
    rw [List.cons_append, storeAll, ih, storeAll, List.length_cons]
    congr 1
    omega

def take (b : Block α) (n : ℕ) : List α := (List.range n).map fun i : ℕ => b.get i

@[simp] theorem length_take (b : Block α) (n : ℕ) : (b.take n).length = n := by simp [take]

@[simp] theorem getElem_take (b : Block α) (n : ℕ) {i : ℕ} (hi : i < (b.take n).length) :
    (b.take n)[i] = b.get i := by simp [take]

theorem take_storeAll (b : Block α) (l : List α) : (b.storeAll 0 l).take l.length = l := by
  refine List.ext_getElem (length_take _ _) fun i _ hi => ?_
  have hget := (painted_storeAll b 0 l l[i]).get_of_lt hi
  rw [Int.zero_add] at hget
  rw [getElem_take, hget]
  simp [hi]

theorem take_store_of_le (b : Block α) {n : ℕ} {i : ℤ} (hi : (n : ℤ) ≤ i) (a : α) :
    (b.store i a).take n = b.take n := by
  refine List.map_congr_left fun j hj => ?_
  have := List.mem_range.1 hj
  rw [get_store, if_neg (by omega)]

theorem take_store (b : Block α) (n i : ℕ) (a : α) : (b.store i a).take n = (b.take n).set i a := by
  refine List.ext_getElem (by simp) fun j _ _ => ?_
  rw [getElem_take, get_store, List.getElem_set, getElem_take]
  exact if_congr (by omega) rfl rfl

theorem take_of_le (b : Block α) {m n : ℕ} (h : m ≤ n) : (b.take n).take m = b.take m := by
  rw [take, take, ← List.map_take, List.take_range, Nat.min_eq_left h]

end Block

end CWorkspace
