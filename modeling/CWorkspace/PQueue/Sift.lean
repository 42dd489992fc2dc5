import CWorkspace.PQueue
import Mathlib.Tactic.SplitIfs

/-!
# The two loops of the queue

`bubble_up` and `percolate_down` carry one element along a path and leave a hole behind it. With the element put
back into the hole (`virt`), a round swaps two cells, so the elements stay the same and `Heap.UpOrdered`,
`Heap.DownOrdered` are kept.
-/

namespace CWorkspace.PQueue
variable {σ E P : Type*}

section
variable {f : Callbacks σ E P} {q : PQueue σ E} {i j c : ℕ} {e x : E}

@[simp] theorem left_eq (i : ℕ) : left i = 2 * i := by
  rw [left, Nat.shiftLeft_eq, Nat.mul_comm, Nat.pow_one]

@[simp] theorem right_eq (i : ℕ) : right i = 2 * i + 1 := by
  rw [right, Nat.shiftLeft_eq, Nat.mul_comm, Nat.pow_one]

@[simp] theorem parent_eq (i : ℕ) : parent i = i / 2 := by
  rw [parent, Nat.shiftRight_eq_div_pow, Nat.pow_one]

theorem get_put (q : PQueue σ E) (i j : ℕ) (e : E) : (q.put i e).get j = if j = i then e else q.get j := by
  unfold get put
  rw [Block.get_store]
  exact if_congr Int.natCast_inj rfl rfl

/-- The cells, with `x` in the hole at `i`. -/
def virt (q : PQueue σ E) (i : ℕ) (x : E) : ℕ → E := Function.update q.get i x

theorem get_place (q : PQueue σ E) (i : ℕ) (e : E) : (q.place f i e).get = q.virt i e := by
  funext j
  show (q.put i e).get j = _
  rw [get_put, virt, Function.update_apply]

theorem virt_move (hci : c ≠ i) : (q.move f i c).virt c x = q.virt i x ∘ Equiv.swap i c := by
  funext j
  show Function.update ((q.look c).put i (q.get c)).get c x j = Function.update q.get i x (Equiv.swap i c j)
  by_cases hjc : j = c
  · subst hjc
    rw [Function.update_self, Equiv.swap_apply_right, Function.update_self]
  rw [Function.update_of_ne hjc, get_put]
  by_cases hji : j = i
  · subst hji
    rw [if_pos rfl, Equiv.swap_apply_left, Function.update_of_ne hci]
  · rw [if_neg hji, Equiv.swap_apply_of_ne_of_ne hji hjc, Function.update_of_ne hji]
    rfl

theorem virt_get (q : PQueue σ E) (i : ℕ) : q.virt i (q.get i) = q.get := Function.update_eq_self i q.get

end

structure Looked (q q' : PQueue σ E) : Prop where
  size : q'.size = q.size
  avail : q'.avail = q.avail
  step : q'.step = q.step
  mem : q'.mem = q.mem
  block : q'.d.size = q.d.size
  get : q'.get = q.get
  safe : q.d.Safe → q'.d.Safe

namespace Looked
variable {q q' q'' : PQueue σ E}

theorem refl (q : PQueue σ E) : Looked q q := ⟨rfl, rfl, rfl, rfl, rfl, rfl, id⟩

theorem trans (h₁ : Looked q q') (h₂ : Looked q' q'') : Looked q q'' :=
  ⟨h₂.size.trans h₁.size, h₂.avail.trans h₁.avail, h₂.step.trans h₁.step, h₂.mem.trans h₁.mem,
    h₂.block.trans h₁.block, h₂.get.trans h₁.get, fun h => h₂.safe (h₁.safe h)⟩

theorem look (h : Looked q q') {i : ℕ} (hi : i < q.d.size) : Looked q (q'.look i) := by
  refine ⟨h.size, h.avail, h.step, h.mem, h.block, h.get, fun hs => (h.safe hs).load ?_⟩
  rw [h.block]
  omega

theorem virt (h : Looked q q') (i : ℕ) (x : E) : q'.virt i x = q.virt i x := by
  unfold PQueue.virt
  rw [h.get]

end Looked

theorem looked_maxchild (f : Callbacks σ E P) (q : PQueue σ E) (i : ℕ) (hroom : q.size ≤ q.d.size) :
    Looked q (maxchild f q i).2 := by
  unfold maxchild
  simp only [left_eq]
  split_ifs with h₁ h₂
  · exact .refl q
  · exact ((Looked.refl q).look (by omega)).look (by omega)
  · exact ((Looked.refl q).look (by omega)).look (by omega)
  · exact .refl q

theorem bubbleTest_fst (f : Callbacks σ E P) (m : P) (s : PQueue σ E × ℕ) :
    (bubbleTest f m s).1 = true ↔ 1 < s.2 ∧ f.cmppri (f.getpri s.1.mem (s.1.get (s.2 / 2))) m = true := by
  unfold bubbleTest
  split_ifs with h
  · simp [h]
  · simp [h]

theorem bubbleTest_snd (f : Callbacks σ E P) (m : P) (s : PQueue σ E × ℕ) (hs : s.2 < s.1.d.size) :
    (bubbleTest f m s).2.2 = s.2 ∧ Looked s.1 (bubbleTest f m s).2.1 := by
  unfold bubbleTest
  split_ifs with h
  · exact ⟨rfl, (Looked.refl _).look (by rw [parent_eq]; omega)⟩
  · exact ⟨rfl, .refl _⟩

theorem maxchild_eq_zero {f : Callbacks σ E P} {q : PQueue σ E} {i : ℕ} (hi : 1 ≤ i)
    (h : (maxchild f q i).1 = 0) : q.size ≤ 2 * i := by
  unfold maxchild at h
  simp only [left_eq] at h
  split_ifs at h <;> omega

theorem percolateTest_fst (f : Callbacks σ E P) (m : P) (s : PQueue σ E × ℕ × ℕ)
    (hroom : s.1.size ≤ s.1.d.size) : (percolateTest f m s).1 = true ↔ (maxchild f s.1 s.2.1).1 ≠ 0 ∧
      f.cmppri m (f.getpri s.1.mem (s.1.get (maxchild f s.1 s.2.1).1)) = true := by
  have hl := looked_maxchild f s.1 s.2.1 hroom
  unfold percolateTest
  dsimp only
  split_ifs with h
  · rw [hl.mem, hl.get]
    exact (and_iff_right h).symm
  · exact ⟨fun h' => h'.elim, fun h' => absurd h'.1 h⟩

theorem percolateTest_snd (f : Callbacks σ E P) (m : P) (s : PQueue σ E × ℕ × ℕ)
    (hroom : s.1.size ≤ s.1.d.size) : (percolateTest f m s).2.2 = (s.2.1, (maxchild f s.1 s.2.1).1) ∧
      Looked s.1 (percolateTest f m s).2.1 := by
  have hl := looked_maxchild f s.1 s.2.1 hroom
  unfold percolateTest
  dsimp only
  split_ifs with h
  · refine ⟨rfl, hl.look ?_⟩
    have hlt : (maxchild f s.1 s.2.1).1 < s.1.size := by
      unfold maxchild at h ⊢
      simp only [left_eq] at h ⊢
      split_ifs at h ⊢ <;> omega
    omega
  · exact ⟨rfl, hl⟩

theorem percolateDown_size (f : Callbacks σ E P) (q : PQueue σ E) (hq : 1 ≤ q.size) :
    percolateDown f q q.size = (q.look q.size).place f q.size (q.get q.size) := by
  have hchild : maxchild f (q.look q.size) q.size = (0, q.look q.size) := by
    unfold maxchild
    rw [left_eq]
    exact if_pos (show q.size ≤ 2 * q.size by omega)
  have htest : percolateTest f (f.getpri q.mem (q.get q.size)) (q.look q.size, q.size, 0) =
      (false, q.look q.size, q.size, 0) := by
    unfold percolateTest
    rw [hchild]
    rfl
  have hloop := whileEval_of_false (congrArg Prod.fst htest) (percolateBody f) q.size
  rw [htest] at hloop
  unfold percolateDown
  exact congrArg (fun s : PQueue σ E × ℕ × ℕ => s.1.place f s.2.1 (q.get q.size)) hloop

/-! ### What the loops keep -/

namespace Callbacks

/-- `a` may stand over `b` in the heap. -/
def Over (f : Callbacks σ E P) (a b : P) : Prop := f.cmppri a b = false

theorem over_of_cmppri {f : Callbacks σ E P} [Std.Total f.Over] {a b : P} (h : f.cmppri a b = true) :
    f.Over b a := by
  rcases total_of f.Over a b with hab | hba
  · unfold Over at hab
    rw [h] at hab
    exact absurd hab Bool.true_eq_false_eq_False
  · exact hba

end Callbacks

def keys (f : Callbacks σ E P) (q : PQueue σ E) : ℕ → P := fun i => f.getpri q.mem (q.get i)

/-- No other child of `i` ranks above the one `maxchild` picks. -/
theorem maxchild_max {f : Callbacks σ E P} [Std.Total f.Over] {q : PQueue σ E} {i : ℕ}
    (h : (maxchild f q i).1 ≠ 0) : (maxchild f q i).1 / 2 = i ∧ (maxchild f q i).1 < q.size ∧
      ∀ j, j / 2 = i → j < q.size → f.Over (keys f q (maxchild f q i).1) (keys f q j) := by
  unfold maxchild at h ⊢
  simp only [left_eq] at h ⊢
  split_ifs at h ⊢ with h₁ h₂ h₃
  · exact absurd rfl h
  · refine ⟨by omega, h₂, fun j hj hjn => ?_⟩
    rcases (by omega : j = 2 * i ∨ j = 2 * i + 1) with rfl | rfl
    · exact Callbacks.over_of_cmppri h₃
    · exact refl_of f.Over _
  · refine ⟨by omega, by omega, fun j hj hjn => ?_⟩
    rcases (by omega : j = 2 * i ∨ j = 2 * i + 1) with rfl | rfl
    · exact refl_of f.Over _
    · exact Bool.eq_false_iff.2 h₃
  · refine ⟨by omega, by omega, fun j hj hjn => ?_⟩
    obtain rfl : j = 2 * i := by omega
    exact refl_of f.Over _

namespace Callbacks

/-- Positions are kept apart from priorities. -/
def KeepsPri (f : Callbacks σ E P) : Prop :=
  ∀ s e i e', f.getpri (f.setpos s e i) e' = f.getpri s e'

def Tracks (f : Callbacks σ E P) : Prop :=
  ∀ s e i e', (e' = e → f.getpos (f.setpos s e i) e' = i) ∧
    (e' ≠ e → f.getpos (f.setpos s e i) e' = f.getpos s e')

/-- The callbacks read and write two fields of each element. -/
structure Lawful (f : Callbacks σ E P) : Prop where
  keepsPri : f.KeepsPri
  tracks : f.Tracks
  keepsPos : ∀ s e p e', f.getpos (f.setpri s e p) e' = f.getpos s e'
  assigns : ∀ s e p e', (e' = e → f.getpri (f.setpri s e p) e' = p) ∧
    (e' ≠ e → f.getpri (f.setpri s e p) e' = f.getpri s e')

end Callbacks

section
variable [DecidableEq E]

def members (q : PQueue σ E) : Finset E := (Finset.Ico 1 q.size).image q.get

/-- All is right but the order, and the position of the element in cell `i`. -/
structure Loose (f : Callbacks σ E P) (q : PQueue σ E) (i : ℕ) : Prop where
  lo : 1 ≤ i
  hi : i < q.size
  room : q.size ≤ q.d.size
  safe : q.d.Safe
  inj : Set.InjOn q.get (Set.Ico 1 q.size)
  pos : f.Tracks → ∀ j, 1 ≤ j → j < q.size → j ≠ i → f.getpos q.mem (q.get j) = j

/-- The elements of `q₀`, with `x` on its way at `i`. -/
structure Sifting (f : Callbacks σ E P) (q₀ : PQueue σ E) (x : E) (q : PQueue σ E) (i : ℕ) : Prop where
  lo : 1 ≤ i
  hi : i < q₀.size
  size : q.size = q₀.size
  avail : q.avail = q₀.avail
  step : q.step = q₀.step
  block : q.d.size = q₀.d.size
  safe : q.d.Safe
  pri : ∀ e, f.getpri q.mem e = f.getpri q₀.mem e
  inj : Set.InjOn (q.virt i x) (Set.Ico 1 q₀.size)
  members : (Finset.Ico 1 q₀.size).image (q.virt i x) = q₀.members
  pos : f.Tracks → ∀ j, 1 ≤ j → j < q₀.size → j ≠ i → f.getpos q.mem (q.get j) = j

/-- The elements of `q₀` in their places. -/
structure Settled (f : Callbacks σ E P) (q₀ q : PQueue σ E) : Prop where
  size : q.size = q₀.size
  avail : q.avail = q₀.avail
  step : q.step = q₀.step
  block : q.d.size = q₀.d.size
  safe : q.d.Safe
  pri : ∀ e, f.getpri q.mem e = f.getpri q₀.mem e
  inj : Set.InjOn q.get (Set.Ico 1 q₀.size)
  members : q.members = q₀.members
  pos : f.Tracks → ∀ j, 1 ≤ j → j < q₀.size → f.getpos q.mem (q.get j) = j

variable {f : Callbacks σ E P} {q₀ q q' : PQueue σ E} {i c : ℕ} {x : E}

theorem Loose.sifting (h : Loose f q i) : Sifting f q (q.get i) (q.look i) i := by
  have hlook := (Looked.refl q).look (i := i) (Nat.lt_of_lt_of_le h.hi h.room)
  have hvirt : (q.look i).virt i (q.get i) = q.get := virt_get q i
  refine ⟨h.lo, h.hi, rfl, rfl, rfl, rfl, hlook.safe h.safe, fun _ => rfl, ?_, ?_, h.pos⟩
  · rw [hvirt]
    exact h.inj
  · rw [hvirt]
    rfl

namespace Sifting

theorem looked (h : Sifting f q₀ x q i) (hl : Looked q q') : Sifting f q₀ x q' i := by
  refine ⟨h.lo, h.hi, hl.size.trans h.size, hl.avail.trans h.avail, hl.step.trans h.step, hl.block.trans h.block,
    hl.safe h.safe, fun e => ?_, ?_, ?_, fun ht j hj hjn hji => ?_⟩
  · rw [hl.mem]
    exact h.pri e
  · rw [hl.virt]
    exact h.inj
  · rw [hl.virt]
    exact h.members
  · rw [hl.mem, hl.get]
    exact h.pos ht j hj hjn hji

theorem get_ne (h : Sifting f q₀ x q i) {j : ℕ} (hj : 1 ≤ j ∧ j < q₀.size) (hji : j ≠ i)
    (hc : 1 ≤ c ∧ c < q₀.size) (hci : c ≠ i) (hjc : j ≠ c) : q.get j ≠ q.get c := by
  intro hget
  refine hjc (h.inj ⟨hj.1, hj.2⟩ ⟨hc.1, hc.2⟩ ?_)
  rw [virt, Function.update_of_ne hji, Function.update_of_ne hci]
  exact hget

theorem move (h : Sifting f q₀ x q i) (hpri : f.KeepsPri) (hroom : q₀.size ≤ q₀.d.size) (hc : 1 ≤ c)
    (hcn : c < q₀.size) (hci : c ≠ i) : Sifting f q₀ x (q.move f i c) c := by
  have hmaps : ∀ j, j ∈ Finset.Ico 1 q₀.size ↔ Equiv.swap i c j ∈ Finset.Ico 1 q₀.size := by
    intro j
    have hi := h.hi
    have hlo := h.lo
    simp only [Finset.mem_Ico, Equiv.swap_apply_def]
    split_ifs <;> omega
  have hblock := h.block
  refine ⟨hc, hcn, h.size, h.avail, h.step, hblock, ?_, fun e => ?_, ?_, ?_, fun ht j hj hjn hjc => ?_⟩
  · have hi := h.hi
    exact ((h.safe.load (by omega)).store (by rw [Block.load_size]; omega) _).load (by
      rw [Block.store_size, Block.load_size]; omega)
  · exact (hpri _ _ _ _).trans (h.pri e)
  · rw [virt_move hci]
    refine h.inj.comp (Equiv.injective _).injOn fun j hj => ?_
    exact Finset.mem_Ico.1 ((hmaps j).1 (Finset.mem_Ico.2 hj))
  · rw [virt_move hci, ← h.members]
    ext e
    simp only [Finset.mem_image, Function.comp_apply]
    constructor
    · rintro ⟨j, hj, rfl⟩
      exact ⟨_, (hmaps j).1 hj, rfl⟩
    · rintro ⟨j, hj, rfl⟩
      refine ⟨Equiv.swap i c j, (hmaps _).2 ?_, ?_⟩ <;> rw [Equiv.swap_apply_self]
      exact hj
  · have hget : (q.move f i c).get j = if j = i then q.get c else q.get j := get_put _ _ _ _
    have hmem : (q.move f i c).mem = f.setpos q.mem (q.get c) i := by
      show f.setpos q.mem (((q.look c).put i (q.get c)).get i) i = _
      rw [get_put, if_pos rfl]
    rw [hget, hmem]
    by_cases hji : j = i
    · rw [if_pos hji, hji]
      exact (ht _ _ _ _).1 rfl
    · rw [if_neg hji, (ht _ _ _ _).2 (h.get_ne ⟨hj, hjn⟩ hji ⟨hc, hcn⟩ hci hjc)]
      exact h.pos ht j hj hjn hji

theorem place (h : Sifting f q₀ x q i) (hpri : f.KeepsPri) (hroom : q₀.size ≤ q₀.d.size) :
    Settled f q₀ (q.place f i x) := by
  have hget : (q.place f i x).get = q.virt i x := get_place q i x
  have hblock := h.block
  refine ⟨h.size, h.avail, h.step, hblock, ?_, fun e => ?_, ?_, ?_, fun ht j hj hjn => ?_⟩
  · have hi := h.hi
    exact h.safe.store (by omega) x
  · exact (hpri _ _ _ _).trans (h.pri e)
  · rw [hget]
    exact h.inj
  · unfold PQueue.members
    rw [hget]
    show (Finset.Ico 1 q.size).image _ = _
    rw [h.size]
    exact h.members
  · rw [hget]
    show f.getpos (f.setpos q.mem x i) _ = j
    by_cases hji : j = i
    · subst hji
      exact (ht _ _ _ _).1 (Function.update_self ..)
    · have hne : q.virt i x j ≠ x := by
        intro hx
        refine hji (h.inj ⟨hj, hjn⟩ ⟨h.lo, h.hi⟩ ?_)
        rw [hx, virt, Function.update_self]
      rw [(ht _ _ _ _).2 hne, virt, Function.update_of_ne hji]
      exact h.pos ht j hj hjn hji

end Sifting

/-! ### The loops -/

theorem Settled.keys_eq (h : Settled f q₀ q) : keys f q = f.getpri q₀.mem ∘ q.get := by
  funext i
  exact h.pri _

structure Rising (f : Callbacks σ E P) (q₀ : PQueue σ E) (x : E) (s : PQueue σ E × ℕ) : Prop where
  sifting : Sifting f q₀ x s.1 s.2
  order : Heap.UpOrdered f.Over q₀.size (f.getpri q₀.mem ∘ s.1.virt s.2 x) s.2

structure Sinking (f : Callbacks σ E P) (q₀ : PQueue σ E) (x : E) (s : PQueue σ E × ℕ × ℕ) : Prop where
  sifting : Sifting f q₀ x s.1 s.2.1
  order : Heap.DownOrdered f.Over q₀.size (f.getpri q₀.mem ∘ s.1.virt s.2.1 x) s.2.1

theorem Rising.lt_block {s : PQueue σ E × ℕ} (h : Rising f q₀ x s) (hroom : q₀.size ≤ q₀.d.size) :
    s.2 < s.1.d.size := by
  have := h.sifting.hi
  have := h.sifting.block
  omega

theorem Sinking.room {s : PQueue σ E × ℕ × ℕ} (h : Sinking f q₀ x s) (hroom : q₀.size ≤ q₀.d.size) :
    s.1.size ≤ s.1.d.size := by
  rw [h.sifting.size, h.sifting.block]
  exact hroom

variable [Std.Total f.Over]

/-- The child of the hole that `maxchild` picks, among the keys with `x` put back. -/
theorem Sinking.child {s : PQueue σ E × ℕ × ℕ} (h : Sinking f q₀ x s) (hc : (maxchild f s.1 s.2.1).1 = c)
    (hc₀ : c ≠ 0) : c / 2 = s.2.1 ∧ s.2.1 < c ∧ c < q₀.size ∧
      (f.getpri q₀.mem ∘ s.1.virt s.2.1 x) c = f.getpri s.1.mem (s.1.get c) ∧
      ∀ j, j / 2 = s.2.1 → j < q₀.size →
        f.Over ((f.getpri q₀.mem ∘ s.1.virt s.2.1 x) c) ((f.getpri q₀.mem ∘ s.1.virt s.2.1 x) j) := by
  obtain ⟨hup, hlt, hmax⟩ := maxchild_max (hc.trans_ne hc₀)
  rw [hc] at hup hlt hmax
  rw [h.sifting.size] at hlt hmax
  have hlo := h.sifting.lo
  have hkey : ∀ j, j ≠ s.2.1 → (f.getpri q₀.mem ∘ s.1.virt s.2.1 x) j = keys f s.1 j := by
    intro j hj
    rw [Function.comp_apply, virt, Function.update_of_ne hj, ← h.sifting.pri]
    rfl
  refine ⟨hup, by omega, hlt, hkey c (by omega), fun j hj hjn => ?_⟩
  rw [hkey c (by omega), hkey j (by omega)]
  exact hmax j hj hjn

theorem Sinking.round (hpri : f.KeepsPri) (hroom : q₀.size ≤ q₀.d.size) {s : PQueue σ E × ℕ × ℕ}
    (h : Sinking f q₀ x s) (htest : (percolateTest f (f.getpri q₀.mem x) s).1 = true) :
    Sinking f q₀ x (percolateBody f (percolateTest f (f.getpri q₀.mem x) s).2) ∧
      q₀.size - (percolateBody f (percolateTest f (f.getpri q₀.mem x) s).2).2.1 < q₀.size - s.2.1 := by
  obtain ⟨hc₀, hcmp⟩ := (percolateTest_fst _ _ _ (h.room hroom)).1 htest
  obtain ⟨h₂, hl⟩ := percolateTest_snd f (f.getpri q₀.mem x) s (h.room hroom)
  obtain ⟨hup, hlt, hcn, hkey, hmax⟩ := h.child rfl hc₀
  have hlo := h.sifting.lo
  unfold percolateBody
  rw [h₂]
  refine ⟨⟨(h.sifting.looked hl).move hpri hroom (by omega) hcn (by omega), ?_⟩, ?_⟩
  · show Heap.DownOrdered _ _ (_ ∘ (move f _ s.2.1 _).virt _ x) _
    rw [virt_move (by omega), hl.virt, ← Function.comp_assoc]
    refine h.order.step hlo hup hcn hmax ?_
    rw [hkey, Function.comp_apply, virt, Function.update_self]
    exact Callbacks.over_of_cmppri hcmp
  · show q₀.size - (maxchild f s.1 s.2.1).1 < q₀.size - s.2.1
    omega

variable [IsTrans P f.Over]

theorem Rising.round (hpri : f.KeepsPri) (hroom : q₀.size ≤ q₀.d.size) {s : PQueue σ E × ℕ}
    (h : Rising f q₀ x s) (htest : (bubbleTest f (f.getpri q₀.mem x) s).1 = true) :
    Rising f q₀ x (bubbleBody f (bubbleTest f (f.getpri q₀.mem x) s).2) ∧
      (bubbleBody f (bubbleTest f (f.getpri q₀.mem x) s).2).2 < s.2 := by
  obtain ⟨hi, hcmp⟩ := (bubbleTest_fst ..).1 htest
  obtain ⟨h₂, hl⟩ := bubbleTest_snd f (f.getpri q₀.mem x) s (h.lt_block hroom)
  have hne : s.2 / 2 ≠ s.2 := by omega
  have hin := h.sifting.hi
  have hat : s.1.virt s.2 x s.2 = x := Function.update_self ..
  have hup : s.1.virt s.2 x (s.2 / 2) = s.1.get (s.2 / 2) := Function.update_of_ne hne ..
  unfold bubbleBody
  rw [h₂, parent_eq]
  refine ⟨⟨(h.sifting.looked hl).move hpri hroom (by omega) (by omega) hne, ?_⟩, by omega⟩
  show Heap.UpOrdered _ _ (_ ∘ (move f _ s.2 (s.2 / 2)).virt (s.2 / 2) x) _
  rw [virt_move hne, hl.virt, ← Function.comp_assoc]
  refine h.order.step hi hin ?_
  rw [Function.comp_apply, Function.comp_apply, hat, hup]
  rw [h.sifting.pri] at hcmp
  exact Callbacks.over_of_cmppri hcmp

/-- `bubble_up` mends the edge over cell `i`. -/
theorem bubbleUp_settled (hpri : f.KeepsPri) (h : Loose f q i)
    (ho : Heap.UpOrdered f.Over q.size (keys f q) i) :
    Settled f q (bubbleUp f q i) ∧ Heap.Ordered f.Over q.size (keys f (bubbleUp f q i)) := by
  have hstart : Rising f q (q.get i) (q.look i, i) := by
    refine ⟨h.sifting, ?_⟩
    rw [show (q.look i).virt i (q.get i) = q.get from virt_get q i]
    exact ho
  obtain ⟨s, hs, htest, heq⟩ := whileEval_inv (m := Prod.snd) (fun s hs => hs.round hpri h.room)
    (Nat.le_refl i) hstart
  obtain ⟨h₂, hl⟩ := bubbleTest_snd f (f.getpri q.mem (q.get i)) s (hs.lt_block h.room)
  have hplace : bubbleUp f q i =
      (bubbleTest f (f.getpri q.mem (q.get i)) s).2.1.place f s.2 (q.get i) := by
    unfold bubbleUp
    simp only [heq, h₂]
  have hset : Settled f q (bubbleUp f q i) := by
    rw [hplace]
    exact (hs.sifting.looked hl).place hpri h.room
  refine ⟨hset, ?_⟩
  rw [hset.keys_eq, hplace, get_place, hl.virt]
  refine hs.order.ordered fun hi _ => ?_
  have hup : s.1.virt s.2 (q.get i) (s.2 / 2) = s.1.get (s.2 / 2) := Function.update_of_ne (by omega) ..
  have hat : s.1.virt s.2 (q.get i) s.2 = q.get i := Function.update_self ..
  rw [Function.comp_apply, Function.comp_apply, hup, hat]
  have hstop : ¬ (1 < s.2 ∧ f.cmppri (f.getpri s.1.mem (s.1.get (s.2 / 2))) (f.getpri q.mem (q.get i)) = true) := by
    rw [← bubbleTest_fst, htest]
    exact Bool.false_ne_true
  rw [← hs.sifting.pri]
  exact Bool.eq_false_iff.2 fun hcmp => hstop ⟨hi, hcmp⟩

/-- `percolate_down` mends the edges under cell `i`. -/
theorem percolateDown_settled (hpri : f.KeepsPri) (h : Loose f q i)
    (ho : Heap.DownOrdered f.Over q.size (keys f q) i) :
    Settled f q (percolateDown f q i) ∧ Heap.Ordered f.Over q.size (keys f (percolateDown f q i)) := by
  have hstart : Sinking f q (q.get i) (q.look i, i, 0) := by
    refine ⟨h.sifting, ?_⟩
    rw [show (q.look i).virt i (q.get i) = q.get from virt_get q i]
    exact ho
  obtain ⟨s, hs, htest, heq⟩ := whileEval_inv (m := fun s => q.size - s.2.1) (fun s hs => hs.round hpri h.room)
    (Nat.sub_le q.size i) hstart
  obtain ⟨h₂, hl⟩ := percolateTest_snd f (f.getpri q.mem (q.get i)) s (hs.room h.room)
  have hplace : percolateDown f q i =
      (percolateTest f (f.getpri q.mem (q.get i)) s).2.1.place f s.2.1 (q.get i) := by
    unfold percolateDown
    simp only [heq, h₂]
  have hset : Settled f q (percolateDown f q i) := by
    rw [hplace]
    exact (hs.sifting.looked hl).place hpri h.room
  refine ⟨hset, ?_⟩
  rw [hset.keys_eq, hplace, get_place, hl.virt]
  refine hs.order.ordered fun j hj hji hjn => ?_
  have hlo := hs.sifting.lo
  by_cases hc₀ : (maxchild f s.1 s.2.1).1 = 0
  · have := maxchild_eq_zero hlo hc₀
    rw [hs.sifting.size] at this
    omega
  · obtain ⟨hup, hlt, hcn, hkey, hmax⟩ := hs.child rfl hc₀
    refine trans_of f.Over ?_ (hmax j hji hjn)
    rw [hkey, Function.comp_apply, virt, Function.update_self]
    have hstop := mt (percolateTest_fst f (f.getpri q.mem (q.get i)) s (hs.room h.room)).2
      (Bool.eq_false_iff.1 htest)
    exact Bool.eq_false_iff.2 fun hcmp => hstop ⟨hc₀, hcmp⟩

end

end CWorkspace.PQueue
