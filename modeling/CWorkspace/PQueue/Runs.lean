import CWorkspace.Lib.Machine
import CWorkspace.PQueue.Operations

/-!
# Runs of a priority queue

`Bag` is what the queue is for: a set of elements with priorities, of which one that none outranks can be had.
Every run of the queue, from `pqueue_init` on, whatever calls are made and whatever the caller does to elements
that are not in the queue, is a run of the bag with the same answers, and no access of it is out of bounds, as
long as the numbers of bytes asked for are `size_t`s.
-/

namespace CWorkspace
variable {σ E P : Type*} [DecidableEq E]

/-! ### What the queue is for -/

structure Bag (E P : Type*) where
  members : Finset E
  pri : E → P

namespace PQueue

/-- `granted`: whether the memory is there if the call needs any. -/
inductive Call (E P : Type*)
  | insert (e : E) (granted : Bool)
  | changePriority (p : P) (e : E)
  | remove (e : E)
  | pop
  | peek
  | size

inductive Answer (E : Type*)
  | status (n : ℕ)
  | found (e : Option E)
  | count (n : ℕ)
  | done

end PQueue

open PQueue in
/-- The steps of the bag; `none` is a step of the caller. -/
inductive Bag.Step (Over : P → P → Prop) : Bag E P → Option (Call E P × Answer E) → Bag E P → Prop
  | inserted {b : Bag E P} {e : E} {granted : Bool} (he : e ∉ b.members) :
      Step Over b (some (.insert e granted, .status 0)) { b with members := insert e b.members }
  | refused {b : Bag E P} {e : E} : Step Over b (some (.insert e false, .status 1)) b
  | changed {b : Bag E P} {p : P} {e : E} (he : e ∈ b.members) :
      Step Over b (some (.changePriority p e, .done)) { b with pri := Function.update b.pri e p }
  | removed {b : Bag E P} {e : E} (he : e ∈ b.members) :
      Step Over b (some (.remove e, .status 0)) { b with members := b.members.erase e }
  | popped {b : Bag E P} {e : E} (he : e ∈ b.members) (htop : ∀ e' ∈ b.members, Over (b.pri e) (b.pri e')) :
      Step Over b (some (.pop, .found (some e))) { b with members := b.members.erase e }
  | nothingPopped {b : Bag E P} (hb : b.members = ∅) : Step Over b (some (.pop, .found none)) b
  | peeked {b : Bag E P} {e : E} (he : e ∈ b.members) (htop : ∀ e' ∈ b.members, Over (b.pri e) (b.pri e')) :
      Step Over b (some (.peek, .found (some e))) b
  | nothingPeeked {b : Bag E P} (hb : b.members = ∅) : Step Over b (some (.peek, .found none)) b
  | counted {b : Bag E P} : Step Over b (some (.size, .count b.members.card)) b
  | elsewhere {b : Bag E P} {pri : E → P} (hpri : ∀ e ∈ b.members, pri e = b.pri e) :
      Step Over b none { b with pri := pri }

namespace PQueue

/-! ### The runs of the queue -/

variable (a : Arch)

def exec (f : Callbacks σ E P) (q : PQueue σ E) : Call E P → Answer E × PQueue σ E
  | .insert e granted => (.status (insert a f q e granted).1, (insert a f q e granted).2)
  | .changePriority p e => (.done, changePriority f q p e)
  | .remove e => (.status (remove f q e).1, (remove f q e).2)
  | .pop => (.found (pop f q).1, (pop f q).2)
  | .peek => (.found q.peek.1, q.peek.2)
  | .size => (.count q.count, q)

/-- The caller puts no element in twice, and moves and removes only what is in; where the block grows, its new
size in bytes is a `size_t`. -/
def Allowed (q : PQueue σ E) : Call E P → Prop
  | .insert e _ => e ∉ q.members ∧ (q.avail ≤ q.size → a.Fits (q.size + q.step))
  | .changePriority _ e => e ∈ q.members
  | .remove e => e ∈ q.members
  | .pop => True
  | .peek => True
  | .size => True

/-- A call, or a change of elements that are not in the queue. -/
inductive Step (f : Callbacks σ E P) : PQueue σ E → Option (Call E P × Answer E) → PQueue σ E → Prop
  | call {q : PQueue σ E} (c : Call E P) (hc : q.Allowed a c) :
      Step f q (some (c, (exec a f q c).1)) (exec a f q c).2
  | elsewhere {q : PQueue σ E} (mem : σ)
      (hmem : ∀ e ∈ q.members, f.getpri mem e = f.getpri q.mem e ∧ f.getpos mem e = f.getpos q.mem e) :
      Step f q none { q with mem := mem }

def bag (f : Callbacks σ E P) (q : PQueue σ E) : Bag E P := ⟨q.members, f.getpri q.mem⟩

structure Ready (f : Callbacks σ E P) (q : PQueue σ E) : Prop where
  sound : Sound f q
  block : q.d.size = q.avail
  avail : q.size ≤ q.avail
  step : 1 ≤ q.step
  fits : a.Fits q.avail

variable {a} {f : Callbacks σ E P} {q q' : PQueue σ E} {e : E}

omit [DecidableEq E] in
theorem ready_init (f : Callbacks σ E P) {n : ℕ} (hn : a.Fits (n + 1)) (stale : ℤ → E) (mem : σ) :
    Ready a f (init a n stale mem) := by
  have hblock : (init a n stale mem).d.size = n + 1 := by
    show a.cells (a.size_t (n + 1)) = _
    rw [hn.size_t_eq, hn.cells_eq]
  have havail : (init a n stale mem).avail = n + 1 := hn.size_t_eq
  have hstep : (init a n stale mem).step = n + 1 := hn.size_t_eq
  have hsize : (init a n stale mem).size = 1 := rfl
  refine ⟨⟨Nat.le_refl 1, by omega, Block.safe_malloc _ _, ?_, fun _ j hj hjn => ?_, fun j hj hjn => ?_⟩,
    hblock.trans havail.symm, by omega, by omega, by rwa [havail]⟩
  · exact fun j hj => absurd hj.2 (Nat.not_lt.2 hj.1)
  · exact absurd hjn (Nat.not_lt.2 hj)
  · have : j < 1 := hjn
    omega

theorem members_eq_empty_iff (h : Sound f q) : q.members = ∅ ↔ q.size = 1 := by
  rw [← Finset.card_eq_zero, h.card_members]
  have := h.lo
  unfold count
  omega

theorem Becomes.bag {n : ℕ} {s : Finset E} (h : Becomes f q n s q') : bag f q' = ⟨s, f.getpri q.mem⟩ := by
  unfold PQueue.bag
  rw [h.members, funext h.pri]

theorem Becomes.ready {n : ℕ} {s : Finset E} (h : Becomes f q n s q') (hq : Ready a f q) (hn : n ≤ q.avail) :
    Ready a f q' := by
  refine ⟨h.sound, ?_, ?_, ?_, ?_⟩
  · rw [h.block, h.avail]
    exact hq.block
  · rw [h.size, h.avail]
    exact hn
  · rw [h.step]
    exact hq.step
  · rw [h.avail]
    exact hq.fits

variable [IsTrans P f.Over] [Std.Total f.Over]

theorem insert_refines (hq : Ready a f q) (hpri : f.KeepsPri) (he : e ∉ q.members)
    (hfits : q.avail ≤ q.size → a.Fits (q.size + q.step)) (granted : Bool) :
    Ready a f (insert a f q e granted).2 ∧ Bag.Step f.Over (bag f q)
      (some (.insert e granted, .status (insert a f q e granted).1)) (bag f (insert a f q e granted).2) := by
  have hblock := hq.block
  have havail := hq.avail
  have hstep := hq.step
  unfold insert
  dsimp only
  split_ifs with hfull hgrow
  · rw [hfull.2]
    exact ⟨hq, .refused⟩
  · -- more cells first, the queue in them as it was
    have hfits := hfits hgrow
    rw [hfits.size_t_eq, hfits.cells_eq]
    set q₁ : PQueue σ E := { q with d := q.d.realloc (q.size + q.step), avail := q.size + q.step } with hq₁
    have hsound : Sound f q₁ := by
      refine ⟨hq.sound.lo, Nat.le_add_right .., ?_, hq.sound.inj, hq.sound.pos, hq.sound.order⟩
      refine ⟨fun i hi => ?_, fun i hi => ?_⟩
      · have := hq.sound.safe.writes i hi
        show 0 ≤ i ∧ i < ((q.size + q.step : ℕ) : ℤ)
        omega
      · have := hq.sound.safe.reads i hi
        show 0 ≤ i ∧ i < ((q.size + q.step : ℕ) : ℤ)
        omega
    have hready : Ready a f q₁ := ⟨hsound, rfl, Nat.le_add_right .., hstep, hfits⟩
    have hb := snoc_becomes hsound hpri (e := e) (show q.size < q.size + q.step by omega) he
    refine ⟨hb.ready hready (show q.size + 1 ≤ q.size + q.step by omega), ?_⟩
    rw [hb.bag]
    exact .inserted he
  · have hb := snoc_becomes hq.sound hpri (e := e) (by omega) he
    refine ⟨hb.ready hq (by omega), ?_⟩
    rw [hb.bag]
    exact .inserted he

theorem pop_refines (hq : Ready a f q) (hpri : f.KeepsPri) :
    Ready a f (pop f q).2 ∧ Bag.Step f.Over (bag f q) (some (.pop, .found (pop f q).1)) (bag f (pop f q).2) := by
  by_cases hone : q.size = 1
  · have hpop : pop f q = (none, q) := if_pos hone
    rw [hpop]
    exact ⟨hq, .nothingPopped ((members_eq_empty_iff hq.sound).2 hone)⟩
  · obtain ⟨hfound, hb⟩ := pop_becomes hq.sound hpri hone
    obtain ⟨he, htop⟩ := hq.sound.head hone
    have havail := hq.avail
    refine ⟨hb.ready hq (by omega), ?_⟩
    rw [hfound, hb.bag]
    exact .popped he htop

theorem peek_refines (hq : Ready a f q) :
    Ready a f q.peek.2 ∧ Bag.Step f.Over (bag f q) (some (.peek, .found q.peek.1)) (bag f q.peek.2) := by
  unfold peek
  split_ifs with hone
  · exact ⟨hq, .nothingPeeked ((members_eq_empty_iff hq.sound).2 hone)⟩
  · have hlo := hq.sound.lo
    have hroom := hq.sound.room
    obtain ⟨he, htop⟩ := hq.sound.head hone
    have hl := (Looked.refl q).look (i := 1) (by omega)
    refine ⟨⟨hq.sound.looked hl, hq.block, hq.avail, hq.step, hq.fits⟩, ?_⟩
    exact .peeked he htop

theorem exec_refines (hq : Ready a f q) (hf : f.Lawful) {c : Call E P} (hc : q.Allowed a c) :
    Ready a f (exec a f q c).2 ∧
      Bag.Step f.Over (bag f q) (some (c, (exec a f q c).1)) (bag f (exec a f q c).2) := by
  have havail := hq.avail
  cases c with
  | insert e granted => exact insert_refines hq hf.keepsPri hc.1 hc.2 granted
  | changePriority p e =>
    have hb := changePriority_becomes hq.sound hf hc p
    have hset : f.getpri (f.setpri q.mem e p) = Function.update (f.getpri q.mem) e p := by
      funext e'
      rw [Function.update_apply]
      split_ifs with he
      · exact (hf.assigns ..).1 he
      · exact (hf.assigns ..).2 he
    refine ⟨⟨hb.sound, hb.block.trans (hq.block.trans hb.avail.symm), ?_, ?_, ?_⟩, ?_⟩
    · exact hb.size.trans_le (hq.avail.trans_eq hb.avail.symm)
    · exact hq.step.trans_eq hb.step.symm
    · show a.Fits (changePriority f q p e).avail
      rw [hb.avail]
      exact hq.fits
    · have hstep : Bag.Step f.Over (bag f q) (some (.changePriority p e, .done))
          { bag f q with pri := Function.update (f.getpri q.mem) e p } := .changed hc
      show Bag.Step _ _ (some (.changePriority p e, .done)) (bag f (changePriority f q p e))
      rw [hb.bag, show f.getpri _ = _ from hset]
      exact hstep
  | remove e =>
    have hb := remove_becomes hq.sound hf.keepsPri hf.tracks hc
    refine ⟨hb.ready hq (by omega), ?_⟩
    show Bag.Step _ _ _ (bag f (remove f q e).2)
    rw [hb.bag]
    exact .removed hc
  | pop => exact pop_refines hq hf.keepsPri
  | peek => exact peek_refines hq
  | size =>
    refine ⟨hq, ?_⟩
    show Bag.Step _ _ (some (.size, .count q.count)) _
    rw [← hq.sound.card_members]
    exact .counted

theorem step_refines (hf : f.Lawful) : Machine.Refines (Step a f) (Bag.Step f.Over) (Ready a f) (bag f) := by
  intro q l q' hq hstep
  cases hstep with
  | call c hc => exact exec_refines hq hf hc
  | elsewhere mem hmem =>
    have hget : ∀ j, 1 ≤ j → j < q.size → q.get j ∈ q.members := fun j => get_mem_members
    refine ⟨⟨⟨hq.sound.lo, hq.sound.room, hq.sound.safe, hq.sound.inj, fun ht j hj hjn => ?_, ?_⟩, hq.block,
      hq.avail, hq.step, hq.fits⟩, .elsewhere fun e he => (hmem e he).1⟩
    · exact ((hmem _ (hget j hj hjn)).2).trans (hq.sound.pos ht j hj hjn)
    · intro j hj hjn
      have hjn' : j < q.size := hjn
      show f.Over (f.getpri mem (q.get (j / 2))) (f.getpri mem (q.get j))
      rw [(hmem _ (hget j (by omega) hjn)).1, (hmem _ (hget (j / 2) (by omega) (by omega))).1]
      exact hq.sound.order j hj hjn

/-- The queue is a priority queue, and the index of no child of a cell wraps around. -/
theorem run_refines (hf : f.Lawful) {n : ℕ} (hn : a.Fits (n + 1)) {stale : ℤ → E} {mem : σ}
    {ls : List (Option (Call E P × Answer E))} (h : Machine.Trace (Step a f) (init a n stale mem) ls q) :
    Machine.Trace (Bag.Step f.Over) ⟨∅, f.getpri mem⟩ ls ⟨q.members, f.getpri q.mem⟩ ∧ q.d.Safe ∧
      (∀ j, 1 ≤ j → j < q.size → f.getpos q.mem (q.get j) = j) ∧ ∀ j < q.size, right j < 2 ^ a.sizeBits := by
  obtain ⟨hq, hrun⟩ := h.map (ready_init f hn stale mem) (step_refines hf)
  refine ⟨hrun, hq.sound.safe, hq.sound.pos hf.tracks, fun j hj => ?_⟩
  exact right_lt_of_lt hq.fits (Nat.lt_of_lt_of_le hj hq.avail)

/-! ### Elements with two fields -/

/-- The callbacks of `sample.c`, the greatest priority first. -/
def fields : Callbacks (ℕ → ℕ × ℕ) ℕ ℕ where
  cmppri a b := a < b
  getpri s e := (s e).1
  setpri s e p := Function.update s e (p, (s e).2)
  getpos s e := (s e).2
  setpos s e i := Function.update s e ((s e).1, i)

theorem lawful_fields : fields.Lawful := by
  refine ⟨fun s e i e' => ?_, fun s e i e' => ⟨fun h => ?_, fun h => ?_⟩, fun s e p e' => ?_,
    fun s e p e' => ⟨fun h => ?_, fun h => ?_⟩⟩ <;> unfold fields <;> dsimp only
  · by_cases h : e' = e
    · rw [h, Function.update_self]
    · rw [Function.update_of_ne h]
  · rw [h, Function.update_self]
  · rw [Function.update_of_ne h]
  · by_cases h : e' = e
    · rw [h, Function.update_self]
    · rw [Function.update_of_ne h]
  · rw [h, Function.update_self]
  · rw [Function.update_of_ne h]

theorem over_fields {a b : ℕ} : fields.Over a b ↔ b ≤ a := by
  unfold Callbacks.Over fields
  rw [decide_eq_false_iff_not, Nat.not_lt]

instance : IsTrans ℕ fields.Over := ⟨fun _ _ _ h₁ h₂ => over_fields.2 ((over_fields.1 h₂).trans (over_fields.1 h₁))⟩

instance : Std.Total fields.Over := ⟨fun a b => by
  rw [over_fields, over_fields]
  exact Nat.le_total b a⟩

theorem trace_fields : Machine.Trace (Step .lp64 fields) (init .lp64 1 (fun _ => 0) fun e => (e, 0))
    [some (.insert 3 true, .status 0), some (.insert 5 true, .status 0)]
    (exec .lp64 fields (exec .lp64 fields (init .lp64 1 (fun _ => 0) fun e => (e, 0)) (.insert 3 true)).2
      (.insert 5 true)).2 :=
  .cons (.call (.insert 3 true) ⟨Finset.notMem_empty 3, by decide⟩)
    (.cons (.call (.insert 5 true) ⟨show 5 ∉ members _ by decide, by decide⟩) (.nil _))

theorem run_refines_two : ∃ q : PQueue (ℕ → ℕ × ℕ) ℕ, q.peek.1 = some 5 ∧
    Machine.Trace (Bag.Step fields.Over) ⟨∅, fun e => e⟩
      [some (.insert 3 true, .status 0), some (.insert 5 true, .status 0)] ⟨q.members, fields.getpri q.mem⟩ ∧
    q.d.Safe ∧ (∀ j, 1 ≤ j → j < q.size → fields.getpos q.mem (q.get j) = j) ∧ ∀ j < q.size, right j < 2 ^ 64 :=
  ⟨_, rfl, run_refines lawful_fields (by decide) trace_fields⟩

end PQueue

end CWorkspace
