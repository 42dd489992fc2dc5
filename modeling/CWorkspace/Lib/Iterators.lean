import CWorkspace.Lib.Comp
import Mathlib.Data.List.Basic

/-!
# The algorithms on a vector

`transform`, `removeIf` and `accumulate` from the iterator `first` to the iterator `last`, as loops that stop
where the two are equal. An access outside of the elements ends the computation with its index. On the elements of
a vector they are `map`, `filter` and `foldl`.
-/

namespace CWorkspace

/-- Where an access was made at which there is no element. -/
structure OutOfRange where
  index : ℕ

/-- A computation that may not end, and may leave the elements. -/
abbrev Checked (α : Type) := ExceptT OutOfRange Comp α

namespace Checked
variable {α β : Type}

def Returns (x : Checked α) (a : α) : Prop := Comp.Returns x.run (.ok a)

/-- It ends without an access outside of the elements. -/
def Safe (x : Checked α) : Prop := ∃ a, x.Returns a

theorem Returns.unique {x : Checked α} {a b : α} (ha : x.Returns a) (hb : x.Returns b) : a = b :=
  Except.ok.inj (Comp.Returns.unique ha hb)

@[simp] theorem returns_pure_iff {a b : α} : (pure a : Checked α).Returns b ↔ b = a := by
  rw [Returns, ExceptT.run_pure, Comp.returns_pure_iff, Except.ok.injEq]

@[simp] theorem returns_bind_iff {x : Checked α} {f : α → Checked β} {b : β} :
    (x >>= f).Returns b ↔ ∃ a, x.Returns a ∧ (f a).Returns b := by
  rw [Returns, ExceptT.run_bind, Comp.returns_bind_iff]
  constructor
  · rintro ⟨a | a, ha, hb⟩
    · cases Comp.returns_pure_iff.1 hb
    · exact ⟨a, ha, hb⟩
  · rintro ⟨a, ha, hb⟩
    exact ⟨.ok a, ha, hb⟩

theorem Returns.iff {x : Checked α} {a : α} (h : x.Returns a) {b : α} : x.Returns b ↔ b = a :=
  ⟨fun hb => hb.unique h, fun heq => heq ▸ h⟩

def access (x : Except OutOfRange α) : Checked α := ExceptT.mk (pure x)

@[simp] theorem returns_access_iff {x : Except OutOfRange α} {a : α} : (access x).Returns a ↔ x = .ok a := by
  rw [Returns, access, ExceptT.run_mk, Comp.returns_pure_iff, eq_comm]

end Checked

section
variable {α : Type} {σ : Type}

def deref (real : List α) (i : ℕ) : Except OutOfRange α :=
  match real[i]? with
  | some a => .ok a
  | none => .error ⟨i⟩

def assign (real : List α) (i : ℕ) (a : α) : Except OutOfRange (List α) :=
  if i < real.length then .ok (real.set i a) else .error ⟨i⟩

theorem length_snoc (l : List α) (a : α) : (l ++ [a]).length = l.length + 1 := by
  rw [List.length_append, List.length_singleton]

theorem drop_snoc (l : List α) (a : α) (l' : List α) : (l ++ a :: l').drop (l ++ [a]).length = l' := by
  rw [List.append_cons l a l', List.drop_left]

theorem length_ne (l : List α) (a : α) (l' : List α) : l.length ≠ (l ++ a :: l').length := by
  rw [List.length_append, List.length_cons]; omega

theorem deref_append (l : List α) (a : α) (l' : List α) : deref (l ++ a :: l') l.length = .ok a := by
  rw [deref, List.getElem?_append_right (Nat.le_refl _), Nat.sub_self, List.getElem?_cons_zero]

theorem assign_append (l : List α) (a : α) (l' : List α) (b : α) :
    assign (l ++ a :: l') l.length b = .ok (l ++ b :: l') := by
  rw [assign, if_pos (by rw [List.length_append, List.length_cons]; omega), List.set_append_right _ _ (Nat.le_refl _),
    Nat.sub_self, List.set_cons_zero]

end

section
variable {α β : Type}

def iterateStep (body : ℕ → β → Except OutOfRange β) (last : ℕ) (s : ℕ × β) :
    (ℕ × β) ⊕ Except OutOfRange β :=
  if s.1 = last then .inr (.ok s.2)
  else
    match body s.1 s.2 with
    | .ok s' => .inl (s.1 + 1, s')
    | .error e => .inr (.error e)

/-- `for (; first != last; ++first)` -/
def iterate (body : ℕ → β → Except OutOfRange β) (first last : ℕ) (s : β) : Checked β :=
  Comp.loop (iterateStep body last) (first, s)

theorem iterate_last {body : ℕ → β → Except OutOfRange β} {last : ℕ} {s : β} :
    (iterate body last last s).Returns s := Comp.loop_returns_inr (if_pos rfl)

theorem iterate_next {body : ℕ → β → Except OutOfRange β} {first last : ℕ} {s s' r : β} (hne : first ≠ last)
    (hbody : body first s = .ok s') (h : (iterate body (first + 1) last s').Returns r) :
    (iterate body first last s).Returns r := by
  have hstep : iterateStep body last (first, s) = .inl (first + 1, s') := by
    rw [iterateStep, if_neg hne, hbody]
  exact (Comp.loop_returns_inl hstep).2 h

/-- The invariant rule: `P l s` says what `s` is once the elements of `l` have been passed. -/
theorem iterate_rule {body : ℕ → β → Except OutOfRange β} {real : List α} (P : List α → β → Prop)
    (hbody : ∀ l a l' s, real = l ++ a :: l' → P l s → ∃ s', body l.length s = .ok s' ∧ P (l ++ [a]) s')
    {l l' : List α} (hreal : real = l ++ l') {s : β} (h : P l s) :
    ∃ r, (iterate body l.length real.length s).Returns r ∧ P real r := by
  induction l' generalizing l s with
  | nil =>
    rw [List.append_nil] at hreal
    subst hreal
    exact ⟨s, iterate_last, h⟩
  | cons a l' ih =>
    obtain ⟨s', hs', hP⟩ := hbody l a l' s hreal h
    obtain ⟨r, hr, hPr⟩ := ih (by rw [hreal, List.append_assoc]; rfl) hP
    rw [length_snoc] at hr
    have hne : l.length ≠ real.length := by
      rw [hreal]
      exact length_ne l a l'
    exact ⟨r, iterate_next hne hs' hr, hPr⟩

def transformStep (op : α → α) (i : ℕ) (real : List α) : Except OutOfRange (List α) := do
  let a ← deref real i
  assign real i (op a)

def transform (op : α → α) (real : List α) (first last : ℕ) : Checked (List α) :=
  iterate (transformStep op) first last real

def accumulateStep (real : List α) (op : β → α → β) (i : ℕ) (acc : β) : Except OutOfRange β := do
  let a ← deref real i
  return op acc a

def accumulate (real : List α) (first last : ℕ) (init : β) (op : β → α → β) : Checked β :=
  iterate (accumulateStep real op) first last init

def findStep (pred : α → Bool) (real : List α) (last i : ℕ) : ℕ ⊕ Except OutOfRange ℕ :=
  if i = last then .inr (.ok i)
  else
    match deref real i with
    | .ok a => if pred a then .inr (.ok i) else .inl (i + 1)
    | .error e => .inr (.error e)

def findIf (pred : α → Bool) (real : List α) (first last : ℕ) : Checked ℕ :=
  Comp.loop (findStep pred real last) first

def removeStep (pred : α → Bool) (i : ℕ) (s : List α × ℕ) : Except OutOfRange (List α × ℕ) := do
  let a ← deref s.1 i
  if pred a then return s
  else return (← assign s.1 s.2 a, s.2 + 1)

/-- Moves what is kept to the front, from the first element that is not; returns the iterator behind it. -/
def removeIf (pred : α → Bool) (real : List α) (first last : ℕ) : Checked (List α × ℕ) := do
  let found ← findIf pred real first last
  if found = last then return (real, found)
  else iterate (removeStep pred) (found + 1) last (real, found)

def erase (real : List α) (first last : ℕ) : List α := real.take first ++ real.drop last

/-! ### What they do with the elements -/

theorem transform_returns (op : α → α) (real : List α) :
    (transform op real 0 real.length).Returns (real.map op) := by
  have hbody : ∀ l a l' s, real = l ++ a :: l' → s = l.map op ++ real.drop l.length →
      ∃ s', transformStep op l.length s = .ok s' ∧ s' = (l ++ [a]).map op ++ real.drop (l ++ [a]).length := by
    rintro l a l' s hreal rfl
    have hlen : l.length = (l.map op).length := (List.length_map op).symm
    have hrest : real.drop (l ++ [a]).length = l' := hreal ▸ drop_snoc l a l'
    rw [hrest, hreal, List.drop_left]
    refine ⟨l.map op ++ op a :: l', ?_, by rw [List.map_append, List.append_assoc]; rfl⟩
    rw [transformStep, hlen, deref_append]
    exact assign_append (l.map op) a l' (op a)
  obtain ⟨r, hr, rfl⟩ := iterate_rule (fun l s => s = l.map op ++ real.drop l.length) hbody (l := []) rfl rfl
  rw [List.drop_length, List.append_nil] at hr
  exact hr

theorem accumulate_returns (op : β → α → β) (l l' : List α) (init : β) :
    (accumulate (l ++ l') l.length (l ++ l').length init op).Returns (l'.foldl op init) := by
  have hbody : ∀ k a k' acc, l ++ l' = k ++ a :: k' → (∃ m, k = l ++ m ∧ acc = m.foldl op init) →
      ∃ acc', accumulateStep (l ++ l') op k.length acc = .ok acc' ∧
        ∃ m, k ++ [a] = l ++ m ∧ acc' = m.foldl op init := by
    rintro k a k' _ hreal ⟨m, rfl, rfl⟩
    refine ⟨op (m.foldl op init) a, ?_, m ++ [a], List.append_assoc _ _ _, by rw [List.foldl_concat]⟩
    rw [accumulateStep, hreal, deref_append]
    rfl
  obtain ⟨r, hr, m, hm, rfl⟩ := iterate_rule (fun k acc => ∃ m, k = l ++ m ∧ acc = m.foldl op init) hbody rfl
    ⟨[], (List.append_nil l).symm, rfl⟩
  obtain rfl : l' = m := List.append_cancel_left hm
  exact hr

theorem findIf_returns (pred : α → Bool) (l l' : List α) : (findIf pred (l ++ l') l.length (l ++ l').length).Returns
    (l.length + (l'.takeWhile fun a => !pred a).length) := by
  induction l' generalizing l with
  | nil =>
    rw [List.append_nil]
    exact Comp.loop_returns_inr (if_pos rfl)
  | cons a l' ih =>
    have hstep : findStep pred (l ++ a :: l') (l ++ a :: l').length l.length =
        if pred a then .inr (.ok l.length) else .inl (l.length + 1) := by
      rw [findStep, if_neg (length_ne l a l'), deref_append]
    cases ha : pred a with
    | true =>
      rw [ha, if_pos rfl] at hstep
      rw [List.takeWhile_cons_of_neg (by simp [ha])]
      exact Comp.loop_returns_inr hstep
    | false =>
      rw [ha, if_neg Bool.false_ne_true] at hstep
      have h := ih (l ++ [a])
      rw [List.append_assoc, length_snoc] at h
      rw [List.takeWhile_cons_of_pos (by simp [ha]), List.length_cons, Nat.add_comm _ 1, ← Nat.add_assoc]
      exact (Comp.loop_returns_inl hstep).2 h

theorem removeStep_skips {pred : α → Bool} {i : ℕ} {s : List α × ℕ} {a : α} (hread : deref s.1 i = .ok a)
    (ha : pred a = true) : removeStep pred i s = .ok s := by
  rw [removeStep, hread]
  exact if_pos ha

theorem removeStep_keeps {pred : α → Bool} {i : ℕ} {s : List α × ℕ} {a : α} {real : List α}
    (hread : deref s.1 i = .ok a) (ha : pred a = false) (hassign : assign s.1 s.2 a = .ok real) :
    removeStep pred i s = .ok (real, s.2 + 1) := by
  rw [removeStep, hread]
  show (if pred a then _ else _) = _
  rw [ha, if_neg Bool.false_ne_true, hassign]
  rfl

/-- What is kept of the elements passed stands at the front; between it and what is still to come there is at least
one place. -/
def RemoveInv (pred : α → Bool) (real passed : List α) (s : List α × ℕ) : Prop :=
  ∃ kept junk, kept = passed.filter (fun a => !pred a) ∧ junk ≠ [] ∧ (kept ++ junk).length = passed.length ∧
    s = (kept ++ junk ++ real.drop passed.length, kept.length)

theorem removeStep_inv {pred : α → Bool} {real l l' : List α} {a : α} {s : List α × ℕ} (hreal : real = l ++ a :: l')
    (h : RemoveInv pred real l s) :
    ∃ s', removeStep pred l.length s = .ok s' ∧ RemoveInv pred real (l ++ [a]) s' := by
  obtain ⟨kept, junk, hkept, hjunk, hlen, rfl⟩ := h
  have hrest : real.drop (l ++ [a]).length = l' := hreal ▸ drop_snoc l a l'
  have hdrop : real.drop l.length = a :: l' := by
    rw [hreal, List.drop_left]
  have hread : deref (kept ++ junk ++ a :: l') l.length = .ok a := hlen ▸ deref_append _ a l'
  rw [hdrop]
  cases ha : pred a with
  | true =>
    refine ⟨_, removeStep_skips hread ha, kept, junk ++ [a], ?_, by simp, ?_, ?_⟩
    · rw [List.filter_append, List.filter_singleton, ha, hkept]
      exact (List.append_nil _).symm
    · rw [← List.append_assoc, length_snoc, length_snoc, hlen]
    · rw [hrest, ← List.append_assoc, List.append_assoc (kept ++ junk)]
      rfl
  | false =>
    obtain ⟨b, junk, rfl⟩ := List.exists_cons_of_ne_nil hjunk
    have hassign : assign (kept ++ b :: junk ++ a :: l') kept.length a = .ok (kept ++ a :: (junk ++ a :: l')) := by
      rw [List.append_assoc]
      exact assign_append kept b (junk ++ a :: l') a
    refine ⟨_, removeStep_keeps hread ha hassign, kept ++ [a], junk ++ [a], ?_, by simp, ?_, ?_⟩
    · rw [List.filter_append, List.filter_singleton, ha, hkept]
      rfl
    · rw [List.length_append, List.length_cons] at hlen
      rw [length_snoc, ← hlen, List.length_append, length_snoc, length_snoc]
      omega
    · rw [hrest, length_snoc]
      simp

theorem removeIf_returns (pred : α → Bool) (real : List α) : ∃ junk, (removeIf pred real 0 real.length).Returns
    (real.filter (fun a => !pred a) ++ junk, (real.filter fun a => !pred a).length) := by
  have hfind := findIf_returns pred [] real
  have hsplit := List.takeWhile_append_dropWhile (p := fun a => !pred a) (l := real)
  have hkept : ∀ a ∈ real.takeWhile (fun a => !pred a), (!pred a) = true :=
    List.all_eq_true.1 List.all_takeWhile
  generalize real.takeWhile (fun a => !pred a) = kept at hfind hsplit hkept
  rw [List.nil_append, List.length_nil, Nat.zero_add] at hfind
  cases hrest : real.dropWhile (fun a => !pred a) with
  | nil =>
    rw [hrest, List.append_nil] at hsplit
    subst hsplit
    refine ⟨[], Checked.returns_bind_iff.2 ⟨_, hfind, ?_⟩⟩
    rw [if_pos rfl, Checked.returns_pure_iff, List.filter_eq_self.2 hkept, List.append_nil]
  | cons b rest =>
    have hb : pred b = true := by
      have := List.head_dropWhile_not (fun a => !pred a) (by rw [hrest]; exact List.cons_ne_nil _ _)
      simpa [hrest] using this
    rw [hrest] at hsplit
    subst hsplit
    have hinv : RemoveInv pred (kept ++ b :: rest) (kept ++ [b]) (kept ++ b :: rest, kept.length) := by
      refine ⟨kept, [b], ?_, List.cons_ne_nil _ _, rfl, ?_⟩
      · rw [List.filter_append, List.filter_eq_self.2 hkept, List.filter_singleton, hb]
        exact (List.append_nil _).symm
      · rw [List.append_cons kept b rest, List.drop_left]
    obtain ⟨_, h, _, junk, rfl, -, -, rfl⟩ := iterate_rule (RemoveInv pred (kept ++ b :: rest))
      (fun _ _ _ _ => removeStep_inv) (List.append_cons kept b rest) hinv
    refine ⟨junk, Checked.returns_bind_iff.2 ⟨_, hfind, ?_⟩⟩
    rw [if_neg (length_ne kept b rest)]
    rw [length_snoc, List.drop_length, List.append_nil] at h
    exact h

theorem erase_append (l l' : List α) : erase (l ++ l') l.length (l ++ l').length = l := by
  rw [erase, List.take_left, List.drop_length, List.append_nil]

end

end CWorkspace
