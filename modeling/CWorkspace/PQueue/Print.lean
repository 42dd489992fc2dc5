import CWorkspace.PQueue.Runs

/-!
# Printing and checking a queue

`pqueue_print` empties a copy of the queue; the copy shares the elements, but its callbacks change nothing. What
it prints are the elements in the order of their rank. `pqueue_is_valid` decides the heap order of a queue that is
small enough for its `int`s.
-/

namespace CWorkspace.PQueue
variable {σ E P : Type*} {a : Arch} {f : Callbacks σ E P} {q : PQueue σ E}

/-! ### `pqueue_is_valid` -/

theorem subtreeIsValid_eq (f : Callbacks σ E P) (hint : 2 * q.size ≤ a.INT_MAX + 1) {fuel pos : ℕ} (hpos : 1 ≤ pos)
    (hright : 2 * pos + 1 ≤ a.INT_MAX) (hfuel : q.size ≤ pos + fuel) : ∃ b, subtreeIsValid a f q fuel pos = some b ∧
      (b = true ↔ ∀ j, j < q.size → Heap.Below pos j → f.Over (keys f q (j / 2)) (keys f q j)) := by
  induction fuel generalizing pos with
  | zero =>
    refine ⟨true, rfl, iff_of_true rfl fun j hjn hj => ?_⟩
    have := hj.two_mul_le
    omega
  | succ fuel ih =>
    have hchild : ∀ c, c = 2 * pos ∨ c = 2 * pos + 1 → ∃ b,
        (if a.INT_MAX < c then none
          else if c < q.size then
            if f.cmppri (f.getpri q.mem (q.get pos)) (f.getpri q.mem (q.get c)) then some false
            else subtreeIsValid a f q fuel c
          else some true) = some b ∧
        (b = true ↔ (c < q.size → f.Over (keys f q pos) (keys f q c)) ∧
          ∀ j, j < q.size → Heap.Below c j → f.Over (keys f q (j / 2)) (keys f q j)) := by
      intro c hc
      rw [if_neg (by omega)]
      by_cases hlt : c < q.size
      · rw [if_pos hlt]
        rcases hcmp : f.cmppri (f.getpri q.mem (q.get pos)) (f.getpri q.mem (q.get c)) with _ | _
        · obtain ⟨b, hb, hiff⟩ := ih (show 1 ≤ c by omega) (by omega) (by omega)
          exact ⟨b, hb, hiff.trans (and_iff_right fun _ => hcmp).symm⟩
        · refine ⟨false, rfl, iff_of_false Bool.false_ne_true fun h => ?_⟩
          have hover : f.cmppri _ _ = false := h.1 hlt
          exact absurd (hcmp.symm.trans hover) Bool.true_eq_false.mp
      · rw [if_neg hlt]
        refine ⟨true, rfl, iff_of_true rfl ⟨fun h => absurd h hlt, fun j hjn hj => ?_⟩⟩
        have := hj.two_mul_le
        omega
    unfold subtreeIsValid
    rw [left_eq, right_eq]
    obtain ⟨b, hb, hbelow⟩ := hchild (2 * pos) (.inl rfl)
    obtain ⟨b', hb', hbelow'⟩ := hchild (2 * pos + 1) (.inr rfl)
    have hboth : (∀ j, j < q.size → Heap.Below pos j → f.Over (keys f q (j / 2)) (keys f q j)) ↔
        b = true ∧ b' = true := by
      rw [hbelow, hbelow']
      constructor
      · intro h
        refine ⟨⟨fun hlt => ?_, fun j hjn hj => h j hjn (Heap.below_iff.2 (.inr (.inl hj)))⟩, fun hlt => ?_,
          fun j hjn hj => h j hjn (Heap.below_iff.2 (.inr (.inr hj)))⟩
        · have := h (2 * pos) hlt (Heap.below_iff.2 (.inl (by omega)))
          rwa [show 2 * pos / 2 = pos by omega] at this
        · have := h (2 * pos + 1) hlt (Heap.below_iff.2 (.inl (by omega)))
          rwa [show (2 * pos + 1) / 2 = pos by omega] at this
      · rintro ⟨⟨hl, hbelow⟩, hr, hbelow'⟩ j hjn hj
        rcases Heap.below_iff.1 hj with hj | hj | hj
        · rcases (by omega : j = 2 * pos ∨ j = 2 * pos + 1) with rfl | rfl
          · rw [hj]
            exact hl hjn
          · rw [hj]
            exact hr hjn
        · exact hbelow j hjn hj
        · exact hbelow' j hjn hj
    dsimp only
    rw [hb, hboth]
    cases b with
    | false => exact ⟨false, rfl, by simp⟩
    | true => exact ⟨b', hb', by simp⟩

/-- `pqueue_is_valid` decides whether no element ranks above its parent. -/
theorem isValid_iff (f : Callbacks σ E P) (q : PQueue σ E) (hint : 2 * q.size ≤ a.INT_MAX + 1) :
    ∃ b, isValid a f q = some b ∧ (b = true ↔ Heap.Ordered f.Over q.size (keys f q)) := by
  have := a.int_ge
  obtain ⟨b, hb, hbelow⟩ := subtreeIsValid_eq f hint (Nat.le_refl 1) (by omega) (Nat.le_add_left ..)
  refine ⟨b, hb, hbelow.trans ⟨fun h j hj hjn => h j hjn (Heap.below_one hj), fun h j hjn hj => ?_⟩⟩
  exact h j hj.two_mul_le hjn

/-- Two elements where two insertions leave them, and the other way round. -/
theorem isValid_iff_two : ∃ q : PQueue (ℕ → ℕ × ℕ) ℕ, q.members = Insert.insert 3 {5} ∧
    Heap.Ordered fields.Over q.size (keys fields q) ∧
    ¬ Heap.Ordered fields.Over q.size (keys fields ((q.put 1 3).put 2 5)) := by
  let q := (exec .lp64 fields (exec .lp64 fields (init .lp64 1 (fun _ => 0) fun e => (e, 0)) (.insert 3 true)).2
    (.insert 5 true)).2
  obtain ⟨b, hb, hiff⟩ := isValid_iff (a := .lp64) fields q (by decide)
  obtain ⟨b', hb', hiff'⟩ := isValid_iff (a := .lp64) fields ((q.put 1 3).put 2 5) (by decide)
  have htrue : isValid .lp64 fields q = some true := by decide
  have hfalse : isValid .lp64 fields ((q.put 1 3).put 2 5) = some false := by decide
  refine ⟨q, by decide, hiff.1 (Option.some.inj (hb.symm.trans htrue)), fun h => ?_⟩
  have := Option.some.inj ((hb'.symm.trans hfalse).symm.trans (congrArg some (hiff'.2 h)))
  exact Bool.false_ne_true this

/-! ### `pqueue_print` -/

theorem mem_percolateDown {M : σ → Prop} (hM : ∀ s e i, M s → M (f.setpos s e i)) (h : M q.mem) (i : ℕ) :
    M (percolateDown f q i).mem := by
  have hchild : ∀ (q : PQueue σ E) (i : ℕ), (maxchild f q i).2.mem = q.mem := by
    intro q i
    unfold maxchild
    dsimp only
    split_ifs <;> rfl
  have htest : ∀ (m : P) (s : PQueue σ E × ℕ × ℕ), M s.1.mem → M (percolateTest f m s).2.1.mem := by
    intro m s hs
    rw [← hchild s.1 s.2.1] at hs
    unfold percolateTest
    dsimp only
    split_ifs
    · exact hs
    · exact hs
  have hbody : ∀ s : PQueue σ E × ℕ × ℕ, M s.1.mem → M (percolateBody f s).1.mem := fun s hs => hM _ _ _ hs
  have hloop := whileEval_stable (P := fun s : PQueue σ E × ℕ × ℕ => M s.1.mem)
    (htest (f.getpri q.mem (q.get i))) hbody q.size (s := (q.look i, i, 0)) h
  exact hM _ _ _ hloop

theorem mem_pop {M : σ → Prop} (hM : ∀ s e i, M s → M (f.setpos s e i)) (h : M q.mem) : M (pop f q).2.mem := by
  unfold pop
  split_ifs
  · exact h
  · exact mem_percolateDown (q := (q.look 1).fill 1) hM h 1

theorem drain_mem {M : σ → Prop} (hM : ∀ s e i, M s → M (f.setpos s e i)) (isNull : E → Bool) (fuel : ℕ)
    (h : M q.mem) : M (drain f isNull fuel q).2.mem := by
  induction fuel generalizing q with
  | zero => exact h
  | succ fuel ih =>
    have hpop := mem_pop hM h
    unfold drain
    split
    · next heq =>
      rw [heq] at hpop
      exact hpop
    · next heq =>
      rw [heq] at hpop
      split_ifs
      · exact hpop
      · exact ih hpop

section
variable [DecidableEq E] [IsTrans P f.Over] [Std.Total f.Over]

/-- Emptying a queue gives its elements in the order of their rank. -/
theorem drain_sorted {isNull : E → Bool} (hnull : ∀ e ∈ q.members, isNull e = false) (h : Sound f q)
    (hpri : f.KeepsPri) {fuel : ℕ} (hfuel : q.size ≤ fuel + 1) :
    (drain f isNull fuel q).1.Pairwise (fun a b => f.Over (f.getpri q.mem a) (f.getpri q.mem b)) ∧
      (drain f isNull fuel q).1.Nodup ∧ (drain f isNull fuel q).1.toFinset = q.members ∧
      (drain f isNull fuel q).2.d.Safe := by
  induction fuel generalizing q with
  | zero =>
    have hempty := (members_eq_empty_iff h).2 (Nat.le_antisymm hfuel h.lo)
    exact ⟨.nil, .nil, hempty.symm, h.safe⟩
  | succ fuel ih =>
    by_cases hone : q.size = 1
    · have hpop : pop f q = (none, q) := if_pos hone
      unfold drain
      rw [hpop]
      exact ⟨.nil, .nil, ((members_eq_empty_iff h).2 hone).symm, h.safe⟩
    obtain ⟨hfound, hb⟩ := pop_becomes h hpri hone
    obtain ⟨he, htop⟩ := h.head hone
    have hsize := hb.size
    have hmembers := hb.members
    obtain ⟨hsorted, hnodup, hrest, hsafe⟩ :=
      ih (fun e he => hnull e (Finset.mem_of_mem_erase (hmembers ▸ he))) hb.sound (by omega)
    have hpop : pop f q = (some (q.get 1), (pop f q).2) := Prod.ext hfound rfl
    rw [hmembers] at hrest
    simp only [hb.pri] at hsorted
    unfold drain
    rw [hpop]
    dsimp only
    rw [hnull _ he, if_neg Bool.false_ne_true]
    refine ⟨List.pairwise_cons.2 ⟨fun e hmem => htop e ?_, hsorted⟩, List.nodup_cons.2 ⟨fun hmem => ?_, hnodup⟩,
      ?_, hsafe⟩
    · rw [← List.mem_toFinset, hrest] at hmem
      exact Finset.mem_of_mem_erase hmem
    · rw [← List.mem_toFinset, hrest] at hmem
      exact Finset.ne_of_mem_erase hmem rfl
    · rw [List.toFinset_cons, hrest, Finset.insert_erase he]

end

section
variable (hfits : a.Fits (q.size + 1)) (stale : ℤ → E)
include hfits

theorem painted_dup (e : E) : Block.Painted (Block.malloc (q.size + 1) stale) (q.dup a stale).d 0
    ((List.range q.size).map q.get).length fun j => ((List.range q.size).map q.get).getD j e := by
  have hd : (q.dup a stale).d = (Block.malloc (q.size + 1) stale).storeAll 0 ((List.range q.size).map q.get) := by
    show (Block.malloc (a.cells (a.size_t (q.size + 1))) stale).storeAll _ _ = _
    rw [hfits.size_t_eq, hfits.cells_eq]
  rw [hd]
  exact Block.painted_storeAll _ _ _ _

theorem get_dup {j : ℕ} (hj : j < q.size) : (q.dup a stale).get j = q.get j := by
  have hget := (painted_dup hfits stale (q.get 0)).get_of_lt (j := j) (by simpa using hj)
  rw [Int.zero_add] at hget
  refine hget.trans ?_
  simp [List.getD, hj]

theorem sound_dup (h : Sound f q) (hpos : f.Tracks) : Sound f.quiet (q.dup a stale) := by
  have hp := painted_dup hfits stale (q.get 0)
  have hsize : (q.dup a stale).d.size = q.size + 1 := hp.size
  refine ⟨h.lo, ?_, ?_, fun j hj j' hj' hjj => ?_, fun _ j hj hjn => ?_, fun j hj hjn => ?_⟩
  · rw [hsize]
    exact Nat.le_succ _
  · refine hp.safe (Block.safe_malloc _ _) (Int.le_refl 0) ?_
    rw [List.length_map, List.length_range]
    show (0 : ℤ) + q.size ≤ ((q.size + 1 : ℕ) : ℤ)
    omega
  · rw [get_dup hfits stale hj.2, get_dup hfits stale hj'.2] at hjj
    exact h.eq_of_get hj hj' hjj
  · have hjn' : j < q.size := hjn
    rw [get_dup hfits stale hjn']
    exact h.pos hpos j hj hjn'
  · have hjn' : j < q.size := hjn
    have hover := h.order j hj hjn'
    unfold keys at hover ⊢
    rw [get_dup hfits stale hjn', get_dup hfits stale (by omega)]
    exact hover

end

theorem looked_foldl_look (q : PQueue σ E) {l : List ℕ} (hl : ∀ i ∈ l, i < q.d.size) : Looked q (l.foldl look q) := by
  induction l using List.reverseRecOn with
  | nil => exact .refl q
  | append_singleton l i ih =>
    rw [List.foldl_append]
    exact (ih fun j hj => hl j (List.mem_append_left _ hj)).look (hl i (by simp))

/-- `pqueue_print` prints the elements by rank, within both blocks, and changes nothing: with memory for its copy,
whose size in bytes is a `size_t`, and no element that is a null pointer. -/
theorem print_sorted [DecidableEq E] [IsTrans P f.Over] [Std.Total f.Over] (hf : f.Lawful) {n : ℕ}
    (hn : a.Fits (n + 1)) {stale : ℤ → E} {mem : σ} {ls : List (Option (Call E P × Answer E))}
    (h : Machine.Trace (Step a f) (init a n stale mem) ls q) (hfits : a.Fits (q.size + 1)) (isNull : E → Bool)
    (hnull : ∀ e ∈ q.members, isNull e = false) (stale' : ℤ → E) :
    ∃ out q', print a f q isNull true stale' = some (out, q') ∧
      out.Pairwise (fun e e' => f.Over (f.getpri q.mem e) (f.getpri q.mem e')) ∧ out.Nodup ∧
      out.toFinset = q.members ∧ (drain f.quiet isNull q.size (q.dup a stale')).2.d.Safe ∧ Looked q q' := by
  obtain ⟨hq, -⟩ := h.map (ready_init f hn stale mem) (step_refines hf)
  have hdup := sound_dup hfits stale' hq.sound hf.tracks
  have hmembers : (q.dup a stale').members = q.members :=
    Finset.image_congr fun j hj => get_dup hfits stale' (Finset.mem_Ico.1 hj).2
  have : IsTrans P f.quiet.Over := inferInstanceAs (IsTrans P f.Over)
  have : Std.Total f.quiet.Over := inferInstanceAs (Std.Total f.Over)
  obtain ⟨hsorted, hnodup, hout, hsafe⟩ :=
    drain_sorted (fun e he => hnull e (hmembers ▸ he)) hdup (fun _ _ _ _ => rfl) (Nat.le_succ q.size)
  refine ⟨_, _, rfl, hsorted, hnodup, hout.trans hmembers, hsafe, ?_⟩
  have hroom := hq.sound.room
  have hl := looked_foldl_look q (l := List.range q.size) fun i hi => by
    have := List.mem_range.1 hi
    omega
  have hmem : (drain f.quiet isNull q.size (q.dup a stale')).2.mem = q.mem :=
    drain_mem (f := f.quiet) (M := fun s => s = q.mem) (fun _ _ _ hs => hs) isNull q.size rfl
  exact ⟨hl.size, hl.avail, hl.step, hmem, hl.block, hl.get, hl.safe⟩

theorem print_sorted_two : ∃ (q : PQueue (ℕ → ℕ × ℕ) ℕ) (out : List ℕ) (q' : PQueue (ℕ → ℕ × ℕ) ℕ),
    q.members = Insert.insert 3 {5} ∧ print .lp64 fields q (fun e => e = 0) true (fun _ => 0) = some (out, q') ∧
    out.Pairwise (fun e e' => fields.Over (fields.getpri q.mem e) (fields.getpri q.mem e')) ∧ out.Nodup ∧
    out.toFinset = q.members ∧
    (drain fields.quiet (fun e => e = 0) q.size (q.dup .lp64 fun _ => 0)).2.d.Safe ∧ Looked q q' := by
  obtain ⟨out, q', hprint⟩ :=
    print_sorted lawful_fields (by decide) trace_fields (by decide) (fun e => e = 0) (by decide) fun _ => 0
  exact ⟨_, out, q', by decide, hprint⟩

end CWorkspace.PQueue
