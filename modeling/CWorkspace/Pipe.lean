import CWorkspace.Lib.OrderedMap
import Mathlib.Data.Finset.Sort
import Mathlib.Order.Fin.Basic

/-!
# `Pipe` (`cpp/src/utils/pipe/Pipe.h`)

A pipe of steps `T → T` (`T = ReturnType`), kept in a `std::map<uint, STEP>`. `start` feeds the value
through the steps in ascending order number. What a history of `addStepAt` / `removeStepAt` calls
leaves at an order number is `firstSinceRemove`, a statement about the calls alone.
-/

namespace CWorkspace

abbrev uint := Fin (2 ^ 32)

structure Pipe (T : Type*) where
  _steps : OrderedMap uint (T → T)

namespace Pipe
variable {T : Type*}

def new : Pipe T := ⟨∅⟩

def addStepAt (p : Pipe T) (order : uint) (step : T → T) : Pipe T := ⟨p._steps.emplace order step⟩

def removeStepAt (p : Pipe T) (order : uint) : Pipe T := ⟨p._steps.erase order⟩

/-- `std::accumulate` over the map, whose iterators run through the keys in ascending order. -/
def start (p : Pipe T) (initValue : T) : T :=
  p._steps.entries.foldl (fun accu pair =>
    let step := pair.2
    step accu) initValue

theorem ext_find? {p p' : Pipe T} (h : ∀ k, p._steps.find? k = p'._steps.find? k) : p = p' := by
  cases p; cases p'
  exact congrArg Pipe.mk (OrderedMap.ext_find? h)

/-! ### Histories of calls -/

inductive Call (T : Type*)
  | addStepAt (order : uint) (step : T → T)
  | removeStepAt (order : uint)

namespace Call

def order : Call T → uint
  | addStepAt o _ => o
  | removeStepAt o => o

def apply (p : Pipe T) : Call T → Pipe T
  | addStepAt o f => p.addStepAt o f
  | removeStepAt o => p.removeStepAt o

def isRemoveAt (o : uint) : Call T → Bool
  | addStepAt _ _ => false
  | removeStepAt o' => o' = o

def addedAt (o : uint) : Call T → Option (T → T)
  | addStepAt o' f => if o' = o then some f else none
  | removeStepAt _ => none

end Call

def run (calls : List (Call T)) : Pipe T := calls.foldl Call.apply new

/-- The first step added at `o` after the last remove of `o`. -/
def firstSinceRemove (calls : List (Call T)) (o : uint) : Option (T → T) :=
  (calls.reverse.takeWhile (!·.isRemoveAt o)).reverse.findSome? (·.addedAt o)

def orderNumbers (calls : List (Call T)) : List uint :=
  (calls.map Call.order).toFinset.sort (· ≤ ·)

/-- A history is split at its end: a remove forgets what was there, an add counts only as the first. -/
theorem firstSinceRemove_concat (calls : List (Call T)) (c : Call T) (o : uint) :
    firstSinceRemove (calls ++ [c]) o =
      if c.isRemoveAt o then none else (firstSinceRemove calls o).or (c.addedAt o) := by
  rw [firstSinceRemove, List.reverse_append, List.reverse_singleton, List.singleton_append,
    List.takeWhile_cons]
  split_ifs with h₁ h₂ h₂
  · simp [h₂] at h₁
  · rw [List.reverse_cons, List.findSome?_append, firstSinceRemove]
    cases h : c.addedAt o <;> simp [h]
  · rfl
  · simp [h₂] at h₁

theorem run_concat (calls : List (Call T)) (c : Call T) : run (calls ++ [c]) = c.apply (run calls) := by
  rw [run, List.foldl_append]; rfl

theorem apply_find? (p : Pipe T) (c : Call T) (o : uint) :
    (c.apply p)._steps.find? o =
      if c.isRemoveAt o then none else (p._steps.find? o).or (c.addedAt o) := by
  cases c with
  | addStepAt o' f =>
    simp only [Call.apply, addStepAt, OrderedMap.find?_emplace, Call.isRemoveAt,
      Call.addedAt, Bool.false_eq_true, ↓reduceIte]
    by_cases h : o = o'
    · subst h; cases p._steps.find? o <;> simp
    · simp [h, Ne.symm h]
  | removeStepAt o' =>
    simp only [Call.apply, removeStepAt, OrderedMap.find?_erase, Call.isRemoveAt, Call.addedAt,
      Option.or_none, decide_eq_true_eq]
    exact ite_congr (propext eq_comm) (fun _ => rfl) (fun _ => rfl)

/-- The store after a history holds, at each order number, the first step since its last remove. -/
theorem run_find? (calls : List (Call T)) (o : uint) :
    (run calls)._steps.find? o = firstSinceRemove calls o := by
  induction calls using List.reverseRecOn with
  | nil => rfl
  | append_singleton calls c ih => rw [run_concat, apply_find?, ih, firstSinceRemove_concat]

theorem firstSinceRemove_eq_none {calls : List (Call T)} {o : uint}
    (h : ∀ c ∈ calls, c.order ≠ o) : firstSinceRemove calls o = none := by
  refine List.findSome?_eq_none_iff.2 fun c hc => ?_
  have hmem : c ∈ calls := List.mem_reverse.1 (List.takeWhile_subset _ (List.mem_reverse.1 hc))
  cases c with
  | addStepAt o' f => exact if_neg (h _ hmem)
  | removeStepAt o' => rfl

theorem pairwise_orderNumbers (calls : List (Call T)) : (orderNumbers calls).Pairwise (· < ·) :=
  (Finset.sortedLT_sort _).pairwise

theorem mem_orderNumbers {calls : List (Call T)} {o : uint} (h : (firstSinceRemove calls o).isSome) :
    o ∈ orderNumbers calls := by
  rw [orderNumbers, Finset.mem_sort, List.mem_toFinset, List.mem_map]
  by_contra hne
  rw [firstSinceRemove_eq_none fun c hc heq => hne ⟨c, hc, heq⟩] at h
  exact absurd h (by simp)

theorem start_run (calls : List (Call T)) (initValue : T) :
    (run calls).start initValue =
      ((orderNumbers calls).filterMap (firstSinceRemove calls)).foldl (fun v step => step v) initValue := by
  have hentries := (run calls)._steps.entries_eq_filterMap (pairwise_orderNumbers calls)
    fun o ho => mem_orderNumbers (by rwa [run_find?] at ho)
  simp only [run_find?] at hentries
  rw [start, hentries, ← List.foldl_map (f := Prod.snd) (g := fun v (step : T → T) => step v),
    List.map_filterMap]
  simp only [Option.map_map]
  congr 2
  funext o
  cases firstSinceRemove calls o <;> rfl

theorem apply_find?_of_ne (p : Pipe T) (c : Call T) {o : uint} (h : c.order ≠ o) :
    (c.apply p)._steps.find? o = p._steps.find? o := by
  rw [apply_find?]
  cases c with
  | addStepAt o' f => simp [Call.isRemoveAt, Call.addedAt, show o' ≠ o from h]
  | removeStepAt o' => simp [Call.isRemoveAt, Call.addedAt, show o' ≠ o from h]

theorem apply_find?_congr {p p' : Pipe T} (c : Call T) {o : uint}
    (h : p._steps.find? o = p'._steps.find? o) :
    (c.apply p)._steps.find? o = (c.apply p')._steps.find? o := by
  rw [apply_find?, apply_find?, h]

theorem apply_comm (p : Pipe T) (c d : Call T) (h : c.order ≠ d.order) :
    d.apply (c.apply p) = c.apply (d.apply p) := by
  refine ext_find? fun o => ?_
  by_cases hc : c.order = o
  · have hd : d.order ≠ o := fun hd => h (hc.trans hd.symm)
    rw [apply_find?_of_ne _ d hd]
    exact apply_find?_congr c (apply_find?_of_ne p d hd).symm
  · rw [apply_find?_of_ne _ c hc]
    exact apply_find?_congr d (apply_find?_of_ne p c hc)

theorem run_swap (before after : List (Call T)) (c d : Call T) (h : c.order ≠ d.order) :
    run (before ++ c :: d :: after) = run (before ++ d :: c :: after) := by
  simp only [run, List.foldl_append, List.foldl_cons]
  rw [apply_comm _ c d h]

/-! ### Cutting a pipe at an order number -/

/-- The calls on the order numbers satisfying `p` build the restriction of the pipe to them. -/
theorem run_filter (calls : List (Call T)) (p : uint → Bool) :
    run (calls.filter (p ·.order)) = ⟨(run calls)._steps.restrict p⟩ := by
  induction calls using List.reverseRecOn with
  | nil => rfl
  | append_singleton calls c ih =>
    refine ext_find? fun o => ?_
    rw [List.filter_append, OrderedMap.find?_restrict, run_concat]
    by_cases hc : p c.order
    · rw [List.filter_singleton, hc, cond_true, run_concat]
      by_cases ho : p o
      · rw [if_pos ho, apply_find?, apply_find?, ih, OrderedMap.find?_restrict, if_pos ho]
      · have hne : c.order ≠ o := fun h => ho (h ▸ hc)
        rw [apply_find?_of_ne _ c hne, ih, OrderedMap.find?_restrict]
        simp [ho]
    · rw [List.filter_singleton, Bool.eq_false_iff.2 hc, cond_false, List.append_nil, ih,
        OrderedMap.find?_restrict]
      split_ifs with ho
      · exact (apply_find?_of_ne _ c fun h => hc (h ▸ ho)).symm
      · rfl

theorem start_cut (calls : List (Call T)) (c : uint) (initValue : T) :
    (run calls).start initValue =
      (run (calls.filter (c ≤ ·.order))).start ((run (calls.filter (·.order < c))).start initValue) := by
  rw [run_filter calls (c ≤ ·), run_filter calls (· < c), start, start, start,
    ← List.foldl_append, OrderedMap.entries_lt_append_ge]

/-- `start` after any history is the ordered composition of the first step since the last remove of
each order number; calls on different order numbers commute, and a pipe can be cut at any order. -/
theorem start_is_ordered_composition (calls : List (Call T)) (initValue : T) :
    (run calls).start initValue =
      ((orderNumbers calls).filterMap (firstSinceRemove calls)).foldl (fun v step => step v) initValue ∧
    (∀ (before after : List (Call T)) (c d : Call T), c.order ≠ d.order →
      (run (before ++ c :: d :: after)).start initValue = (run (before ++ d :: c :: after)).start initValue) ∧
    ∀ c : uint, (run calls).start initValue =
      (run (calls.filter (c ≤ ·.order))).start ((run (calls.filter (·.order < c))).start initValue) :=
  ⟨start_run calls initValue, fun before after c d h => by rw [run_swap before after c d h],
    fun c => start_cut calls c initValue⟩

end Pipe

end CWorkspace
