import Mathlib.Tactic.TypeStar

/-!
# Machines whose steps can fail

`step` answers a command with the next state or an error. Two states are `AlikeForever` if no sequence of
commands tells them apart: it fails on both, or leads to states that look the same. A relation that steps
keep, a `Bisim`, is enough for that.

A `Trace` is a run of a relation `step` with a label on each step, and a function `f` from one machine's states
to another's is a refinement if it takes steps to steps with the same label (`Trace.map`).
-/

namespace CWorkspace.Machine
variable {σ κ ε : Type*} (step : σ → κ → Except ε σ)

def runFrom (s : σ) (cs : List κ) : Except ε σ := cs.foldlM step s

theorem runFrom_cons_ok {s s' : σ} {c : κ} (h : step s c = .ok s') (cs : List κ) :
    runFrom step s (c :: cs) = runFrom step s' cs := by
  rw [runFrom, List.foldlM_cons, h]; rfl

theorem runFrom_cons_error {s : σ} {c : κ} {e : ε} (h : step s c = .error e) (cs : List κ) :
    runFrom step s (c :: cs) = .error e := by
  rw [runFrom, List.foldlM_cons, h]; rfl

/-- Both fail, or both go on, to states that `rel` relates. -/
def Both (rel : σ → σ → Prop) (x y : Except ε σ) : Prop :=
  (∃ s t, x = .ok s ∧ y = .ok t ∧ rel s t) ∨ ∃ e e', x = .error e ∧ y = .error e'

/-- Every step keeps the relation. -/
def Bisim (rel : σ → σ → Prop) : Prop :=
  ∀ s t, rel s t → ∀ c, Both rel (step s c) (step t c)

/-- Now and after any commands both have failed, or both are in states that look the same. -/
def AlikeForever (same : σ → σ → Prop) (s t : σ) : Prop :=
  ∀ cs, Both same (runFrom step s cs) (runFrom step t cs)

variable {step} {rel same : σ → σ → Prop} {s t : σ}

theorem Bisim.runFrom (h : Bisim step rel) (hst : rel s t) (cs : List κ) :
    Both rel (runFrom step s cs) (runFrom step t cs) := by
  induction cs generalizing s t with
  | nil => exact .inl ⟨s, t, rfl, rfl, hst⟩
  | cons c cs ih =>
    rcases h s t hst c with ⟨s', t', hs, ht, hst'⟩ | ⟨e, e', hs, ht⟩
    · rw [runFrom_cons_ok step hs, runFrom_cons_ok step ht]
      exact ih hst'
    · rw [runFrom_cons_error step hs, runFrom_cons_error step ht]
      exact .inr ⟨e, e', rfl, rfl⟩

theorem Bisim.alikeForever (h : Bisim step rel) (hsame : ∀ s t, rel s t → same s t) (hst : rel s t) :
    AlikeForever step same s t := by
  intro cs
  rcases h.runFrom hst cs with ⟨s', t', hs, ht, hst'⟩ | herr
  · exact .inl ⟨s', t', hs, ht, hsame s' t' hst'⟩
  · exact .inr herr

namespace AlikeForever

theorem now (h : AlikeForever step same s t) : same s t := by
  rcases h [] with ⟨s', t', hs, ht, hst⟩ | ⟨_, _, hs, -⟩
  · cases hs; cases ht; exact hst
  · cases hs

theorem next (h : AlikeForever step same s t) {c : κ} {s' t' : σ} (hs : step s c = .ok s')
    (ht : step t c = .ok t') : AlikeForever step same s' t' := by
  intro cs
  have := h (c :: cs)
  rwa [runFrom_cons_ok step hs, runFrom_cons_ok step ht] at this

end AlikeForever

/-! ### Labelled steps -/

inductive Trace {σ κ : Type*} (step : σ → κ → σ → Prop) : σ → List κ → σ → Prop
  | nil (s : σ) : Trace step s [] s
  | cons {s s' s'' : σ} {l : κ} {ls : List κ} : step s l s' → Trace step s' ls s'' → Trace step s (l :: ls) s''

/-- A refinement, under an invariant `P` of the machine that refines. -/
def Refines {σ τ κ : Type*} (step : σ → κ → σ → Prop) (step' : τ → κ → τ → Prop) (P : σ → Prop) (f : σ → τ) :
    Prop :=
  ∀ s l s', P s → step s l s' → P s' ∧ step' (f s) l (f s')

namespace Trace
variable {τ : Type*} {step : σ → κ → σ → Prop} {step' : τ → κ → τ → Prop} {P : σ → Prop} {f : σ → τ} {s s' : σ}
  {ls : List κ}

theorem inv (h : Trace step s ls s') (hP : P s) (hstep : ∀ s l s', P s → step s l s' → P s') : P s' := by
  induction h with
  | nil s => exact hP
  | cons hs _ ih => exact ih (hstep _ _ _ hP hs)

theorem map (h : Trace step s ls s') (hP : P s) (href : Refines step step' P f) :
    P s' ∧ Trace step' (f s) ls (f s') := by
  induction h with
  | nil s => exact ⟨hP, .nil _⟩
  | cons hs _ ih =>
    obtain ⟨hP', hs'⟩ := href _ _ _ hP hs
    obtain ⟨hend, hrest⟩ := ih hP'
    exact ⟨hend, .cons hs' hrest⟩

end Trace

end CWorkspace.Machine
