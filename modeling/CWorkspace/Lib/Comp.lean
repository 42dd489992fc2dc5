import Mathlib.Data.List.Forall2
import Mathlib.Data.Nat.Init
import Mathlib.Tactic.TypeStar

/-!
# Computations that may not end

A `Comp α` is run with a bound on the work and answers once the bound is large enough, if it ever does;
`Returns x a` says that it does, with `a`. `loop step` repeats a step until it yields a result;
`loop_induction` is its rule.
-/

namespace CWorkspace

universe u v

/-- A result that is there stays the same when the bound grows. -/
structure Comp (α : Type u) where
  run : ℕ → Option α
  mono : ∀ n a, run n = some a → run (n + 1) = some a

namespace Comp
variable {α β : Type u} {σ : Type v}

def Returns (x : Comp α) (a : α) : Prop := ∃ n, x.run n = some a

def Halts (x : Comp α) : Prop := ∃ a, x.Returns a

theorem run_mono (x : Comp α) {n m : ℕ} (h : n ≤ m) {a : α} (ha : x.run n = some a) : x.run m = some a := by
  induction m, h using Nat.le_induction with
  | base => exact ha
  | succ m _ ih => exact x.mono m a ih

theorem Returns.unique {x : Comp α} {a b : α} (ha : x.Returns a) (hb : x.Returns b) : a = b := by
  obtain ⟨n, hn⟩ := ha
  obtain ⟨m, hm⟩ := hb
  have hn' := x.run_mono (Nat.le_max_left n m) hn
  rw [x.run_mono (Nat.le_max_right n m) hm] at hn'
  exact (Option.some.inj hn').symm

/-! ### The monad -/

protected def pure (a : α) : Comp α := ⟨fun _ => some a, fun _ _ h => h⟩

protected def bind (x : Comp α) (f : α → Comp β) : Comp β where
  run n := (x.run n).bind fun a => (f a).run n
  mono n b h := by
    obtain ⟨a, ha, hb⟩ := Option.bind_eq_some_iff.1 h
    rw [x.mono n a ha]
    exact (f a).mono n b hb

instance : Monad Comp where
  pure := Comp.pure
  bind := Comp.bind

@[simp] theorem returns_pure_iff {a b : α} : (pure a : Comp α).Returns b ↔ b = a :=
  ⟨fun ⟨_, h⟩ => (Option.some.inj h).symm, fun h => ⟨0, congrArg some h.symm⟩⟩

@[simp] theorem returns_bind_iff {x : Comp α} {f : α → Comp β} {b : β} :
    (x >>= f).Returns b ↔ ∃ a, x.Returns a ∧ (f a).Returns b := by
  constructor
  · rintro ⟨n, hn⟩
    obtain ⟨a, ha, hb⟩ := Option.bind_eq_some_iff.1 hn
    exact ⟨a, ⟨n, ha⟩, ⟨n, hb⟩⟩
  · rintro ⟨a, ⟨n, hn⟩, ⟨m, hm⟩⟩
    refine ⟨max n m, ?_⟩
    show ((x.run (max n m)).bind fun a => (f a).run (max n m)) = some b
    rw [x.run_mono (Nat.le_max_left n m) hn]
    exact (f a).run_mono (Nat.le_max_right n m) hm

theorem returns_foldlM_append_iff {γ δ : Type u} (f : γ → Comp (List δ)) (l : List γ) (acc r : List δ) :
    (l.foldlM (fun acc x => do return acc ++ (← f x)) acc : Comp (List δ)).Returns r ↔
      ∃ rs, List.Forall₂ (fun x => (f x).Returns) l rs ∧ r = acc ++ rs.flatten := by
  induction l generalizing acc with
  | nil =>
    rw [List.foldlM_nil, returns_pure_iff]
    constructor
    · rintro rfl
      exact ⟨[], .nil, by simp⟩
    · rintro ⟨rs, hrs, rfl⟩
      cases hrs
      simp
  | cons x l ih =>
    simp only [List.foldlM_cons, returns_bind_iff, returns_pure_iff, ih]
    constructor
    · rintro ⟨_, ⟨c, hc, rfl⟩, rs, hrs, rfl⟩
      exact ⟨c :: rs, .cons hc hrs, by simp⟩
    · rintro ⟨_, hrs, rfl⟩
      cases hrs with
      | cons hc hrs => exact ⟨_, ⟨_, hc, rfl⟩, _, hrs, by simp⟩

theorem forall_mem_of_forall₂ {γ δ : Type*} {R : γ → δ → Prop} {Q : δ → Prop} (hQ : ∀ x r, R x r → Q r)
    {l : List γ} {rs : List δ} (h : List.Forall₂ R l rs) : ∀ r ∈ rs, Q r := by
  induction h with
  | nil => intro r hr; cases hr
  | cons hr _ ih => exact List.forall_mem_cons.2 ⟨hQ _ _ hr, ih⟩

theorem forall₂_mem {γ δ : Type*} {R : γ → δ → Prop} {l : List γ} {rs : List δ} (h : List.Forall₂ R l rs) :
    List.Forall₂ (fun x r => x ∈ l ∧ r ∈ rs ∧ R x r) l rs := by
  induction h with
  | nil => exact .nil
  | cons hr _ ih =>
    refine .cons ⟨List.mem_cons_self, List.mem_cons_self, hr⟩ (ih.imp fun x r hx => ?_)
    exact ⟨List.mem_cons_of_mem _ hx.1, List.mem_cons_of_mem _ hx.2.1, hx.2.2⟩

theorem forall_mem_left_of_forall₂ {γ δ : Type*} {R : γ → δ → Prop} {Q : γ → Prop} (hQ : ∀ x r, R x r → Q x)
    {l : List γ} {rs : List δ} (h : List.Forall₂ R l rs) : ∀ x ∈ l, Q x :=
  forall_mem_of_forall₂ (fun r x hr => hQ x r hr) h.flip

theorem forall₂_trans {γ δ ε : Type*} {R : γ → δ → Prop} {S : δ → ε → Prop} {T : γ → ε → Prop}
    (hT : ∀ x y z, R x y → S y z → T x z) {l : List γ} {ys : List δ} {zs : List ε} (h : List.Forall₂ R l ys)
    (h' : List.Forall₂ S ys zs) : List.Forall₂ T l zs := by
  induction h generalizing zs with
  | nil =>
    cases h'
    exact .nil
  | cons hx _ ih =>
    cases h' with
    | cons hy h' => exact .cons (hT _ _ _ hx hy) (ih h')

theorem exists_forall₂_iff {γ δ : Type*} {R : γ → δ → Prop} {Q : δ → Prop} (l : List γ) :
    (∃ rs, List.Forall₂ R l rs ∧ ∀ r ∈ rs, Q r) ↔ ∀ x ∈ l, ∃ r, R x r ∧ Q r := by
  constructor
  · rintro ⟨rs, hrs, hQ⟩
    induction hrs with
    | nil => intro x hx; cases hx
    | cons hr _ ih =>
      rw [List.forall_mem_cons] at hQ ⊢
      exact ⟨⟨_, hr, hQ.1⟩, ih hQ.2⟩
  · intro h
    induction l with
    | nil => exact ⟨[], .nil, fun r hr => by cases hr⟩
    | cons x l ih =>
      rw [List.forall_mem_cons] at h
      obtain ⟨⟨r, hr, hQ⟩, h⟩ := h
      obtain ⟨rs, hrs, hQs⟩ := ih h
      exact ⟨r :: rs, .cons hr hrs, List.forall_mem_cons.2 ⟨hQ, hQs⟩⟩

/-! ### Loops -/

def loopRun (step : σ → σ ⊕ α) : ℕ → σ → Option α
  | 0, _ => none
  | n + 1, s =>
    match step s with
    | .inl s' => loopRun step n s'
    | .inr a => some a

/-- Repeats `step` until it yields a result. -/
def loop (step : σ → σ ⊕ α) (s : σ) : Comp α where
  run n := loopRun step n s
  mono n a := by
    induction n generalizing s with
    | zero => intro h; cases h
    | succ n ih =>
      unfold loopRun
      cases step s with
      | inl s' => exact ih s'
      | inr b => exact id

variable {step : σ → σ ⊕ α} {s : σ} {a : α}

theorem loop_returns_inr (h : step s = .inr a) : (loop step s).Returns a :=
  ⟨1, by show loopRun step 1 s = _; rw [loopRun, h]⟩

theorem loop_returns_inl {s' : σ} (h : step s = .inl s') :
    (loop step s).Returns a ↔ (loop step s').Returns a := by
  constructor
  · rintro ⟨n, hn⟩
    cases n with
    | zero => cases hn
    | succ n =>
      refine ⟨n, ?_⟩
      change loopRun step (n + 1) s = some a at hn
      rwa [loopRun, h] at hn
  · rintro ⟨n, hn⟩
    refine ⟨n + 1, ?_⟩
    show loopRun step (n + 1) s = some a
    rw [loopRun, h]
    exact hn

theorem loop_induction {P : σ → Prop} (hinr : ∀ s, step s = .inr a → P s)
    (hinl : ∀ s s', step s = .inl s' → P s' → P s) (h : (loop step s).Returns a) : P s := by
  obtain ⟨n, hn⟩ := h
  change loopRun step n s = some a at hn
  induction n generalizing s with
  | zero => cases hn
  | succ n ih =>
    rw [loopRun] at hn
    cases hs : step s with
    | inl s' =>
      rw [hs] at hn
      exact hinl s s' hs (ih hn)
    | inr b =>
      rw [hs] at hn
      exact hinr s (hs.trans (congrArg Sum.inr (Option.some.inj hn)))

end Comp

end CWorkspace
