import CWorkspace.PQueue.Sift

/-!
# The operations of the queue

A queue is `Sound` if its elements are distinct, in heap order, and know their cells. What each function of
`pqueue.c` makes of a sound queue: it is sound again, with one element more, one less, or one of another
priority.
-/

namespace CWorkspace.PQueue
variable {σ E P : Type*}

structure Sound (f : Callbacks σ E P) (q : PQueue σ E) : Prop where
  lo : 1 ≤ q.size
  room : q.size ≤ q.d.size
  safe : q.d.Safe
  inj : Set.InjOn q.get (Set.Ico 1 q.size)
  pos : f.Tracks → ∀ j, 1 ≤ j → j < q.size → f.getpos q.mem (q.get j) = j
  order : Heap.Ordered f.Over q.size (keys f q)

variable {f : Callbacks σ E P} {q q₁ q' : PQueue σ E} {i n : ℕ} {e : E}

theorem Looked.keys (hl : Looked q q₁) : keys f q₁ = keys f q := by
  unfold PQueue.keys
  rw [hl.mem, hl.get]

theorem Loose.looked (h : Loose f q i) (hl : Looked q q₁) : Loose f q₁ i := by
  refine ⟨h.lo, ?_, ?_, hl.safe h.safe, ?_, ?_⟩
  · rw [hl.size]
    exact h.hi
  · rw [hl.size, hl.block]
    exact h.room
  · rw [hl.size, hl.get]
    exact h.inj
  · rw [hl.size, hl.get, hl.mem]
    exact h.pos

namespace Sound

theorem looked (h : Sound f q) (hl : Looked q q₁) : Sound f q₁ := by
  refine ⟨?_, ?_, hl.safe h.safe, ?_, ?_, ?_⟩
  · rw [hl.size]
    exact h.lo
  · rw [hl.size, hl.block]
    exact h.room
  · rw [hl.size, hl.get]
    exact h.inj
  · rw [hl.size, hl.get, hl.mem]
    exact h.pos
  · rw [hl.size, hl.keys]
    exact h.order

theorem eq_of_get (h : Sound f q) {a b : ℕ} (ha : 1 ≤ a ∧ a < q.size) (hb : 1 ≤ b ∧ b < q.size)
    (hab : q.get a = q.get b) : a = b := h.inj ha hb hab

end Sound

/-! ### Taking a cell out -/

theorem get_fill (q : PQueue σ E) (i : ℕ) : (q.fill i).get = Function.update q.get i (q.get (q.size - 1)) := by
  funext j
  show PQueue.get ((PQueue.look { q with size := q.size - 1 } (q.size - 1)).put i (q.get (q.size - 1))) j = _
  rw [get_put, Function.update_apply]
  rfl

theorem keys_fill (f : Callbacks σ E P) (q : PQueue σ E) (i : ℕ) :
    keys f (q.fill i) = Function.update (keys f q) i (keys f q (q.size - 1)) := by
  funext j
  unfold keys
  rw [get_fill]
  show f.getpri q.mem _ = _
  rw [Function.update_apply, Function.update_apply]
  split_ifs <;> rfl

theorem Sound.safe_fill (h : Sound f q) (hin : i < q.size) : (q.fill i).d.Safe := by
  have hroom := h.room
  have hload : (q.d.load ((q.size - 1 : ℕ) : ℤ)).2.Safe := h.safe.load (by omega)
  exact hload.store (by rw [Block.load_size]; omega) _

theorem Sound.loose_fill (h : Sound f q) (hi : 1 ≤ i) (hin : i < q.size - 1) : Loose f (q.fill i) i := by
  have hroom := h.room
  refine ⟨hi, hin, ?_, h.safe_fill (by omega), fun j hj j' hj' hjj => ?_, fun ht j hj hjn hji => ?_⟩
  · show q.size - 1 ≤ q.d.size
    omega
  · have hj₁ : 1 ≤ j ∧ j < q.size - 1 := hj
    have hj₂ : 1 ≤ j' ∧ j' < q.size - 1 := hj'
    rw [get_fill, Function.update_apply, Function.update_apply] at hjj
    split_ifs at hjj with h₁ h₂ h₂
    · omega
    · have := h.eq_of_get (by omega) (by omega) hjj
      omega
    · have := h.eq_of_get (by omega) (by omega) hjj
      omega
    · exact h.eq_of_get (by omega) (by omega) hjj
  · have hjn' : j < q.size - 1 := hjn
    rw [get_fill, Function.update_of_ne hji]
    exact h.pos ht j hj (by omega)

section
variable [DecidableEq E]

/-- `q'` is sound, of size `n` and with elements `s`, and otherwise as `q`. -/
structure Becomes (f : Callbacks σ E P) (q : PQueue σ E) (n : ℕ) (s : Finset E) (q' : PQueue σ E) : Prop where
  sound : Sound f q'
  size : q'.size = n
  avail : q'.avail = q.avail
  step : q'.step = q.step
  block : q'.d.size = q.d.size
  pri : ∀ e, f.getpri q'.mem e = f.getpri q.mem e
  members : q'.members = s

theorem mem_members : e ∈ q.members ↔ ∃ j, (1 ≤ j ∧ j < q.size) ∧ q.get j = e := by
  unfold members
  simp only [Finset.mem_image, Finset.mem_Ico]

theorem get_mem_members (hi : 1 ≤ i) (hin : i < q.size) : q.get i ∈ q.members :=
  mem_members.2 ⟨i, ⟨hi, hin⟩, rfl⟩

theorem Looked.members (hl : Looked q q₁) : q₁.members = q.members := by
  unfold PQueue.members
  rw [hl.size, hl.get]

theorem Becomes.looked {s : Finset E} (h : Becomes f q₁ n s q') (hl : Looked q q₁) : Becomes f q n s q' := by
  refine ⟨h.sound, h.size, h.avail.trans hl.avail, h.step.trans hl.step, h.block.trans hl.block, fun e => ?_,
    h.members⟩
  rw [h.pri, hl.mem]

theorem Settled.becomes (h : Settled f q q') (hlo : 1 ≤ q.size) (hroom : q.size ≤ q.d.size)
    (ho : Heap.Ordered f.Over q.size (keys f q')) : Becomes f q q.size q.members q' := by
  refine ⟨⟨?_, ?_, h.safe, ?_, ?_, ?_⟩, h.size, h.avail, h.step, h.block, h.pri, h.members⟩
  · rw [h.size]
    exact hlo
  · rw [h.size, h.block]
    exact hroom
  · rw [h.size]
    exact h.inj
  · rw [h.size]
    exact h.pos
  · rw [h.size]
    exact ho

namespace Sound

theorem card_members (h : Sound f q) : q.members.card = q.count := by
  unfold members count
  rw [Finset.card_image_of_injOn, Nat.card_Ico]
  rw [Finset.coe_Ico]
  exact h.inj

theorem members_fill (h : Sound f q) (hi : 1 ≤ i) (hin : i < q.size) :
    (q.fill i).members = q.members.erase (q.get i) := by
  ext e
  rw [Finset.mem_erase, mem_members, mem_members, get_fill]
  constructor
  · rintro ⟨j, hj, rfl⟩
    have hj' : 1 ≤ j ∧ j < q.size - 1 := hj
    rw [Function.update_apply]
    split_ifs with hji
    · refine ⟨fun heq => ?_, q.size - 1, by omega, rfl⟩
      have := h.eq_of_get (by omega) ⟨hi, hin⟩ heq
      omega
    · exact ⟨fun heq => hji (h.eq_of_get (by omega) ⟨hi, hin⟩ heq), j, by omega, rfl⟩
  · rintro ⟨hne, j, hj, rfl⟩
    have hji : j ≠ i := fun hji => hne (hji ▸ rfl)
    by_cases hlast : j = q.size - 1
    · subst hlast
      exact ⟨i, show 1 ≤ i ∧ i < q.size - 1 by omega, Function.update_self ..⟩
    · exact ⟨j, show 1 ≤ j ∧ j < q.size - 1 by omega, Function.update_of_ne hji ..⟩

/-- A loop has mended the queue without the element of cell `i`. -/
theorem of_fill (h : Sound f q) (hi : 1 ≤ i) (hin : i < q.size - 1) (hl : Looked (q.fill i) q₁)
    (hset : Settled f q₁ q') (ho : Heap.Ordered f.Over q₁.size (keys f q')) :
    Becomes f q (q.size - 1) (q.members.erase (q.get i)) q' := by
  have hloose := (h.loose_fill hi hin).looked hl
  have hb := (hset.becomes (Nat.le_of_lt (Nat.lt_of_le_of_lt hloose.lo hloose.hi)) hloose.room ho).looked hl
  rw [hl.members, hl.size, h.members_fill hi (by omega)] at hb
  exact ⟨hb.sound, hb.size, hb.avail, hb.step, hb.block, hb.pri, hb.members⟩

theorem of_fill_last (h : Sound f q) (hpri : f.KeepsPri) (hq : 2 ≤ q.size) (hl : Looked (q.fill (q.size - 1)) q₁) :
    Becomes f q (q.size - 1) (q.members.erase (q.get (q.size - 1))) (percolateDown f q₁ (q.size - 1)) := by
  have hroom := h.room
  have hget₁ : q₁.get = q.get := by
    rw [hl.get, get_fill]
    exact Function.update_eq_self ..
  have hplace : percolateDown f q₁ (q.size - 1) =
      (q₁.look (q.size - 1)).place f (q.size - 1) (q.get (q.size - 1)) := by
    have hdown := percolateDown_size f q₁ (by rw [hl.size]; show 1 ≤ q.size - 1; omega)
    rw [hl.size, hget₁] at hdown
    exact hdown
  have hget : (percolateDown f q₁ (q.size - 1)).get = q.get := by
    rw [hplace, get_place]
    show Function.update q₁.get _ _ = _
    rw [hget₁]
    exact Function.update_eq_self ..
  have hsize : (percolateDown f q₁ (q.size - 1)).size = q.size - 1 := by
    rw [hplace]
    exact hl.size
  have hmem : (percolateDown f q₁ (q.size - 1)).mem = f.setpos q.mem (q.get (q.size - 1)) (q.size - 1) := by
    rw [hplace]
    show f.setpos q₁.mem _ _ = _
    rw [hl.mem]
    rfl
  have hblock : (percolateDown f q₁ (q.size - 1)).d.size = q.d.size := by
    rw [hplace]
    exact hl.block
  have hpri' : ∀ e, f.getpri (percolateDown f q₁ (q.size - 1)).mem e = f.getpri q.mem e := by
    intro e
    rw [hmem]
    exact hpri _ _ _ _
  refine ⟨⟨?_, ?_, ?_, ?_, fun ht j hj hjn => ?_, ?_⟩, hsize, ?_, ?_, hblock, hpri', ?_⟩
  · rw [hsize]
    omega
  · rw [hsize, hblock]
    omega
  · rw [hplace]
    have hload := (hl.safe (h.safe_fill (by omega))).load (i := ((q.size - 1 : ℕ) : ℤ)) (by
      rw [hl.block]
      show _ ∧ _ < ((q.d.size : ℕ) : ℤ)
      omega)
    refine hload.store ?_ _
    rw [Block.load_size, hl.block]
    show _ ∧ _ < ((q.d.size : ℕ) : ℤ)
    omega
  · rw [hsize, hget]
    exact h.inj.mono (Set.Ico_subset_Ico_right (Nat.sub_le ..))
  · rw [hsize] at hjn
    have hne : q.get j ≠ q.get (q.size - 1) := by
      intro heq
      have := h.eq_of_get (by omega) (by omega) heq
      omega
    rw [hmem, hget, (ht _ _ _ _).2 hne]
    exact h.pos ht j hj (by omega)
  · have hkeys : keys f (percolateDown f q₁ (q.size - 1)) = keys f q := by
      funext j
      show f.getpri _ _ = f.getpri _ _
      rw [hpri', hget]
    rw [hsize, hkeys]
    exact h.order.mono (Nat.sub_le ..)
  · rw [hplace]
    exact hl.avail
  · rw [hplace]
    exact hl.step
  · rw [← h.members_fill (by omega) (by omega), ← hl.members]
    unfold PQueue.members
    rw [hsize, hget, hl.size, hget₁]
    rfl

theorem head [IsTrans P f.Over] [Std.Total f.Over] (h : Sound f q) (hq : q.size ≠ 1) : q.get 1 ∈ q.members ∧
    ∀ e ∈ q.members, f.Over (f.getpri q.mem (q.get 1)) (f.getpri q.mem e) := by
  have hlo := h.lo
  refine ⟨get_mem_members (Nat.le_refl 1) (by omega), fun e he => ?_⟩
  obtain ⟨j, hj, rfl⟩ := mem_members.1 he
  exact h.order.root hj.1 hj.2

end Sound

/-! ### The functions of `pqueue.c` -/

variable [IsTrans P f.Over] [Std.Total f.Over]

theorem remove_becomes (h : Sound f q) (hpri : f.KeepsPri) (ht : f.Tracks) (he : e ∈ q.members) :
    Becomes f q (q.size - 1) (q.members.erase e) (remove f q e).2 := by
  obtain ⟨i, ⟨hi, hin⟩, rfl⟩ := mem_members.1 he
  have hl := (Looked.refl (q.fill i)).look (i := i) (by
    have := h.room
    show i < q.d.size
    omega)
  have hat : (q.fill i).get i = q.get (q.size - 1) := by
    rw [get_fill, Function.update_self]
  unfold remove
  rw [h.pos ht i hi hin]
  by_cases hlast : i = q.size - 1
  · have hdown := h.of_fill_last hpri (by omega) (hlast ▸ hl)
    rw [← hlast] at hdown hat
    have hself : f.cmppri (f.getpri q.mem (q.get i)) (f.getpri q.mem (q.get i)) = false := refl_of f.Over _
    dsimp only
    rw [hat, show (q.fill i).mem = q.mem from rfl, hself, ← hlast]
    exact hdown
  have hin' : i < q.size - 1 := by omega
  have hloose := (h.loose_fill hi hin').looked hl
  dsimp only
  rw [hat]
  rcases hcmp : f.cmppri (f.getpri (q.fill i).mem (q.get i)) (f.getpri (q.fill i).mem (q.get (q.size - 1))) with _ | _
  · obtain ⟨hset, ho⟩ := percolateDown_settled hpri hloose (by
      rw [hl.keys, keys_fill]
      exact (h.order.mono (Nat.sub_le ..)).downOrdered hcmp)
    exact h.of_fill hi hin' hl hset ho
  · obtain ⟨hset, ho⟩ := bubbleUp_settled hpri hloose (by
      rw [hl.keys, keys_fill]
      exact (h.order.mono (Nat.sub_le ..)).upOrdered (Callbacks.over_of_cmppri hcmp))
    exact h.of_fill hi hin' hl hset ho

theorem pop_becomes (h : Sound f q) (hpri : f.KeepsPri) (hq : q.size ≠ 1) :
    (pop f q).1 = some (q.get 1) ∧ Becomes f q (q.size - 1) (q.members.erase (q.get 1)) (pop f q).2 := by
  have hlo := h.lo
  have hroom := h.room
  have hl := (Looked.refl q).look (i := 1) (by omega)
  have h' := h.looked hl
  unfold pop
  rw [if_neg hq]
  refine ⟨rfl, ?_⟩
  by_cases hlast : q.size = 2
  · have hdown := h'.of_fill_last hpri (by rw [hl.size]; omega) (.refl _)
    rw [hl.size, hl.get, hl.members, hlast] at hdown
    rw [hlast]
    exact hdown.looked hl
  · have hin : 1 < (q.look 1).size - 1 := by
      rw [hl.size]
      omega
    obtain ⟨hset, ho⟩ := percolateDown_settled hpri (h'.loose_fill (Nat.le_refl 1) hin) (by
      rw [keys_fill]
      exact (h'.order.mono (Nat.sub_le ..)).downOrdered_root _)
    have hb := (h'.of_fill (Nat.le_refl 1) hin (.refl _) hset ho).looked hl
    rw [hl.size, hl.get, hl.members] at hb
    exact hb

theorem snoc_becomes (h : Sound f q) (hpri : f.KeepsPri) (hroom : q.size < q.d.size) (he : e ∉ q.members) :
    Becomes f q (q.size + 1) (Insert.insert e q.members)
      (bubbleUp f ({ q with size := q.size + 1 }.put q.size e) q.size) := by
  set q₁ := PQueue.put { q with size := q.size + 1 } q.size e with hq₁
  have hlo := h.lo
  have hget : q₁.get = Function.update q.get q.size e := by
    funext j
    rw [hq₁, get_put, Function.update_apply]
    rfl
  have hnew : ∀ j, 1 ≤ j → j < q.size → q.get j ≠ e := fun j hj hjn hje => he (mem_members.2 ⟨j, ⟨hj, hjn⟩, hje⟩)
  have hloose : Loose f q₁ q.size := by
    refine ⟨hlo, Nat.lt_succ_self _, hroom, h.safe.store (by omega) e, fun j hj j' hj' hjj => ?_,
      fun ht j hj hjn hjq => ?_⟩
    · have hj₁ : 1 ≤ j ∧ j < q.size + 1 := hj
      have hj₂ : 1 ≤ j' ∧ j' < q.size + 1 := hj'
      rw [hget, Function.update_apply, Function.update_apply] at hjj
      split_ifs at hjj with h₁ h₂ h₂
      · omega
      · exact absurd hjj.symm (hnew j' hj₂.1 (by omega))
      · exact absurd hjj (hnew j hj₁.1 (by omega))
      · exact h.eq_of_get (by omega) (by omega) hjj
    · have hjn' : j < q.size + 1 := hjn
      rw [hget, Function.update_of_ne hjq]
      exact h.pos ht j hj (by omega)
  have hkeys : keys f q₁ = Function.update (keys f q) q.size (f.getpri q.mem e) := by
    funext j
    unfold keys
    rw [hget]
    show f.getpri q.mem _ = _
    rw [Function.update_apply, Function.update_apply]
    split_ifs <;> rfl
  have hmembers : q₁.members = Insert.insert e q.members := by
    ext e'
    rw [Finset.mem_insert, mem_members, mem_members, hget]
    constructor
    · rintro ⟨j, hj, rfl⟩
      have hj' : 1 ≤ j ∧ j < q.size + 1 := hj
      rw [Function.update_apply]
      split_ifs with hjq
      · exact .inl rfl
      · exact .inr ⟨j, by omega, rfl⟩
    · rintro (rfl | ⟨j, hj, rfl⟩)
      · exact ⟨q.size, ⟨hlo, Nat.lt_succ_self _⟩, Function.update_self ..⟩
      · exact ⟨j, ⟨hj.1, Nat.lt_succ_of_lt hj.2⟩, Function.update_of_ne (by omega) ..⟩
  obtain ⟨hset, ho⟩ := bubbleUp_settled hpri hloose (by
    rw [hkeys]
    exact h.order.upOrdered_snoc _)
  have hb := hset.becomes (Nat.le_add_left 1 _) hroom ho
  rw [hmembers] at hb
  exact ⟨hb.sound, hb.size, hb.avail, hb.step, hb.block, hb.pri, hb.members⟩

theorem changePriority_becomes (h : Sound f q) (hf : f.Lawful) (he : e ∈ q.members) (p : P) :
    Becomes f { q with mem := f.setpri q.mem e p } q.size q.members (changePriority f q p e) := by
  obtain ⟨i, ⟨hi, hin⟩, rfl⟩ := mem_members.1 he
  have hloose : Loose f { q with mem := f.setpri q.mem (q.get i) p } i := by
    refine ⟨hi, hin, h.room, h.safe, h.inj, fun ht j hj hjn _ => ?_⟩
    show f.getpos (f.setpri q.mem (q.get i) p) (q.get j) = j
    rw [hf.keepsPos]
    exact h.pos ht j hj hjn
  have hkeys : ∀ j, 1 ≤ j → j < q.size →
      keys f { q with mem := f.setpri q.mem (q.get i) p } j = Function.update (keys f q) i p j := by
    intro j hj hjn
    show f.getpri (f.setpri q.mem (q.get i) p) (q.get j) = _
    rw [Function.update_apply]
    split_ifs with hji
    · subst hji
      exact (hf.assigns _ _ _ _).1 rfl
    · exact (hf.assigns _ _ _ _).2 fun heq => hji (h.eq_of_get ⟨hj, hjn⟩ ⟨hi, hin⟩ heq)
  unfold changePriority
  dsimp only
  rw [hf.keepsPos, h.pos hf.tracks i hi hin]
  rcases hcmp : f.cmppri (f.getpri q.mem (q.get i)) p with _ | _
  · obtain ⟨hset, ho⟩ := percolateDown_settled hf.keepsPri hloose (h.order.downOrdered (i := i) hcmp |>.congr hkeys)
    exact hset.becomes h.lo h.room ho
  · obtain ⟨hset, ho⟩ := bubbleUp_settled hf.keepsPri hloose
      (h.order.upOrdered (i := i) (Callbacks.over_of_cmppri hcmp) |>.congr hkeys)
    exact hset.becomes h.lo h.room ho

end

end CWorkspace.PQueue
