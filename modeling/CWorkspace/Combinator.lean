import CWorkspace.Lib.Iterators

/-!
# `Combinator` (`cpp/src/utils/combinator/Combinator.h`)

A chain of `map` and `filter` leaves the collection that `List.map` and `List.filter` give (`chain_returns_iff`).
`reduce_first` takes its first element without a look at whether there is one (`reduceFirst_after_chain_iff`).
-/

namespace CWorkspace

/-- `real`, of which every operation changes the elements in their place. -/
structure Combinator (α : Type) where
  real : List α

namespace Combinator
variable {α β : Type}

def map (c : Combinator α) (op : α → α) : Checked (Combinator α) := do
  let real ← transform op c.real 0 c.real.length
  return { c with real := real }

def collect (c : Combinator α) : List α := c.real

def filterNot (c : Combinator α) (predicate : α → Bool) : Checked (Combinator α) := do
  let (real, returnIterator) ← removeIf predicate c.real 0 c.real.length
  return { c with real := erase real returnIterator real.length }

/-- The copy made of what `collect` returns is dropped. -/
def filter (c : Combinator α) (predicate : α → Bool) : Checked (Combinator α) := do
  let c ← c.filterNot fun i => !predicate i
  let _fnCol := c.collect
  return c

/-- The second argument of the source only names the type of the result. -/
def reduceFirst (c : Combinator α) (firstLamda : α → β) (op : β → α → β) : Checked β := do
  let first ← Checked.access (deref c.real 0)
  accumulate c.real 1 c.real.length (firstLamda first) op

inductive Call (α : Type)
  | map (op : α → α)
  | filter (predicate : α → Bool)

def Call.apply : Call α → Combinator α → Checked (Combinator α)
  | .map op, c => c.map op
  | .filter predicate, c => c.filter predicate

def chain (calls : List (Call α)) (c : Combinator α) : Checked (Combinator α) :=
  calls.foldlM (fun c call => call.apply c) c

def Call.onList : Call α → List α → List α
  | .map op, l => l.map op
  | .filter predicate, l => l.filter predicate

def listChain (calls : List (Call α)) (col : List α) : List α := calls.foldl (fun l call => call.onList l) col

theorem map_returns (c : Combinator α) (op : α → α) : (c.map op).Returns ⟨c.real.map op⟩ :=
  Checked.returns_bind_iff.2 ⟨_, transform_returns op c.real, Checked.returns_pure_iff.2 rfl⟩

theorem filterNot_returns (c : Combinator α) (predicate : α → Bool) :
    (c.filterNot predicate).Returns ⟨c.real.filter fun a => !predicate a⟩ := by
  obtain ⟨junk, h⟩ := removeIf_returns predicate c.real
  refine Checked.returns_bind_iff.2 ⟨_, h, ?_⟩
  rw [Checked.returns_pure_iff, erase_append]

theorem filter_returns (c : Combinator α) (predicate : α → Bool) :
    (c.filter predicate).Returns ⟨c.real.filter predicate⟩ := by
  refine Checked.returns_bind_iff.2 ⟨_, c.filterNot_returns fun i => !predicate i, ?_⟩
  simp only [Checked.returns_pure_iff, Bool.not_not]

theorem apply_returns (call : Call α) (c : Combinator α) : (call.apply c).Returns ⟨call.onList c.real⟩ := by
  cases call with
  | map op => exact c.map_returns op
  | filter predicate => exact c.filter_returns predicate

/-- No call of a chain fails, and the collection is the one of the list. -/
theorem chain_returns_iff (calls : List (Call α)) (col : List α) (c : Combinator α) :
    (chain calls ⟨col⟩).Returns c ↔ c = ⟨listChain calls col⟩ := by
  induction calls generalizing col with
  | nil => exact Checked.returns_pure_iff
  | cons call calls ih =>
    rw [chain, List.foldlM_cons, Checked.returns_bind_iff]
    simp only [(apply_returns call ⟨col⟩).iff, exists_eq_left]
    exact ih _

theorem reduceFirst_returns_iff (c : Combinator α) (firstLamda : α → β) (op : β → α → β) (b : β) :
    (c.reduceFirst firstLamda op).Returns b ↔ ∃ x xs, c.real = x :: xs ∧ b = xs.foldl op (firstLamda x) := by
  rw [reduceFirst, Checked.returns_bind_iff]
  simp only [Checked.returns_access_iff]
  obtain ⟨real⟩ := c
  cases real with
  | nil =>
    refine iff_of_false ?_ ?_
    · rintro ⟨x, hx, -⟩
      cases hx
    · rintro ⟨x, xs, hnil, -⟩
      exact List.cons_ne_nil x xs hnil.symm
  | cons x xs =>
    have hfold := accumulate_returns op [x] xs (firstLamda x)
    constructor
    · rintro ⟨_, hx, hb⟩
      obtain rfl := Except.ok.inj hx
      exact ⟨x, xs, rfl, hb.unique hfold⟩
    · rintro ⟨_, _, heq, rfl⟩
      obtain ⟨rfl, rfl⟩ := List.cons.inj heq
      exact ⟨x, rfl, hfold⟩

def reduceFirstAfter (calls : List (Call α)) (col : List α) (firstLamda : α → β) (op : β → α → β) : Checked β := do
  let c ← chain calls ⟨col⟩
  c.reduceFirst firstLamda op

theorem reduceFirstAfter_returns_iff (calls : List (Call α)) (col : List α) (firstLamda : α → β) (op : β → α → β)
    (b : β) : (reduceFirstAfter calls col firstLamda op).Returns b ↔
      ∃ x xs, listChain calls col = x :: xs ∧ b = xs.foldl op (firstLamda x) := by
  rw [reduceFirstAfter, Checked.returns_bind_iff]
  simp only [chain_returns_iff, exists_eq_left]
  exact reduceFirst_returns_iff _ _ _ _

/-- After a chain it stays inside of the collection, and returns the fold from the first element on, exactly if
the chain leaves an element. -/
theorem reduceFirst_after_chain_iff (col : List α) (calls : List (Call α)) (firstLamda : α → β) (op : β → α → β) :
    ((reduceFirstAfter calls col firstLamda op).Safe ∧ ∀ x xs, listChain calls col = x :: xs →
      (reduceFirstAfter calls col firstLamda op).Returns (xs.foldl op (firstLamda x))) ↔
    listChain calls col ≠ [] := by
  simp only [Checked.Safe, reduceFirstAfter_returns_iff]
  constructor
  · rintro ⟨⟨_, x, xs, h, -⟩, -⟩
    rw [h]
    exact List.cons_ne_nil x xs
  · intro hne
    obtain ⟨x, xs, h⟩ := List.exists_cons_of_ne_nil hne
    exact ⟨⟨_, x, xs, h, rfl⟩, fun x xs h => ⟨x, xs, h, rfl⟩⟩

theorem reduceFirst_leaves_collection : ¬ ∀ (col : List ℤ) (calls : List (Call ℤ)) (firstLamda : ℤ → ℤ)
    (op : ℤ → ℤ → ℤ), (reduceFirstAfter calls col firstLamda op).Safe := by
  intro h
  obtain ⟨_, hb⟩ := h [1, 3] [.filter fun n => n % 2 = 0] id (· + ·)
  obtain ⟨x, xs, hnil, -⟩ := (reduceFirstAfter_returns_iff _ _ _ _ _).1 hb
  exact List.cons_ne_nil x xs hnil.symm

end Combinator

end CWorkspace
