import CWorkspace.Pic.Coordinate

/-!
# The three row-major loops

`_make_standard_coordinate` goes through the bytes by three and through the cells by one, `process_by_row` copies
the cells row by row: after `m` points the first `3 * m` bytes are loaded and the first `m` cells are stored, each
once (`Covered`), and the callback sees them by rows (`pixel_layout`).
-/

namespace CWorkspace.Pic

theorem toHex_eq (r g b : byte) : toHex r g b = 65536 * r.toNat + 256 * g.toNat + b.toNat := by
  have hg := g.toNat_lt
  have hb := b.toNat_lt
  have hlow : g.toNat <<< 8 ||| b.toNat = g.toNat <<< 8 + b.toNat := (Nat.shiftLeft_add_eq_or_of_lt hb _).symm
  have hlt : g.toNat <<< 8 + b.toNat < 2 ^ 16 := by rw [Nat.shiftLeft_eq]; omega
  rw [toHex, Nat.or_assoc, hlow, ← Nat.shiftLeft_add_eq_or_of_lt hlt, Nat.shiftLeft_eq, Nat.shiftLeft_eq]
  omega

theorem colorOf_eq (r g b : byte) :
    colorOf r g b = if 65536 * r.toNat + 256 * g.toNat + b.toNat ≤ 0xaaaaaa then DOT else BLANK := by
  rw [colorOf, toHex_eq]
  split_ifs <;> first | rfl | omega

/-! ### The accesses -/

structure Covered (m : ℕ) (s : CoordState) : Prop where
  stores : s.coordinate.stores.map Prod.fst = (List.range m).map Nat.cast
  reads : s.arr.reads.reverse = (List.range (3 * m)).map Nat.cast

theorem Covered.step {m width row j : ℕ} {s : CoordState} (h : Covered m s) (hm : m = row * width + j) :
    Covered (m + 1) (pointStep width (width * 3) row s j) := by
  have hcell : (row : ℤ) * width + j = (m : ℕ) := by rw [hm]; push_cast; ring
  have hstart : (row : ℤ) * ((width * 3 : ℕ) : ℤ) + ((3 * j : ℕ) : ℤ) = (3 * m : ℕ) := by rw [hm]; push_cast; ring
  constructor
  · rw [pointStep_coordinate, Buf.stores_store, List.map_append, h.stores, hcell, List.range_succ, List.map_append]
    rfl
  · have hreads : (pointStep width (width * 3) row s j).arr.reads =
        ((3 * m : ℕ) + 2 : ℤ) :: ((3 * m : ℕ) + 1 : ℤ) :: ((3 * m : ℕ) + 0 : ℤ) :: s.arr.reads := by
      rw [← hstart]; rfl
    rw [hreads, List.reverse_cons, List.reverse_cons, List.reverse_cons, h.reads, Nat.mul_succ, List.range_succ,
      List.range_succ, List.range_succ]
    simp

theorem covered_of_unread {arr : Buf ℤ byte} (hread : arr.reads = []) (width height : ℕ) (stale : ℤ → Point) :
    Covered (height * width) (makeStandardCoordinate arr width height (Buf.malloc stale)) := by
  refine forLoop_inv (f := fun s row => forLoop 0 width (pointStep width (width * 3) row) s)
    (fun row s => Covered (row * width) s) (Nat.zero_le height) ?_ fun row s _ _ hs => ?_
  · rw [Nat.zero_mul]
    exact ⟨rfl, by rw [hread]; rfl⟩
  · rw [Nat.succ_mul]
    exact forLoop_inv (f := pointStep width (width * 3) row) (fun j s => Covered (row * width + j) s)
      (Nat.zero_le width) hs fun j s _ _ hs => hs.step rfl

theorem covered_makeStandardCoordinate (bytes : ℤ → byte) (width height : ℕ) (stale : ℤ → Point) :
    Covered (height * width) (makeStandardCoordinate (Buf.malloc bytes) width height (Buf.malloc stale)) :=
  covered_of_unread rfl width height stale

def copyRow (coordinate : Buf ℤ Point) (width : ℕ) (coordRow : Buf ℕ Point) (row : ℕ) : Buf ℕ Point :=
  forLoop 0 width (fun coordRow col => coordRow.store col (coordinate.get (row * width + col))) coordRow

/-- The row buffer at the call for `row`; the rows before it have gone through the same buffer. -/
def rowAt (coordinate : Buf ℤ Point) (width : ℕ) (coordRow : Buf ℕ Point) (row : ℕ) : Buf ℕ Point :=
  forLoop 0 (row + 1) (copyRow coordinate width) coordRow

theorem get_rowAt (coordinate : Buf ℤ Point) {width : ℕ} (coordRow : Buf ℕ Point) (row : ℕ) {x : ℕ}
    (hx : x < width) : (rowAt coordinate width coordRow row).get x = coordinate.get (row * width + x) := by
  rw [rowAt, forLoop_succ (Nat.zero_le row)]
  exact Buf.get_fill _ (fun x : ℕ => coordinate.get ((row : ℤ) * width + x)) hx

theorem processByRow_eq {σ : Type*} (coordinate : Buf ℤ Point) (width height : ℕ)
    (proc : ℕ → Buf ℕ Point → ℕ → σ → σ) (coordRow : Buf ℕ Point) (s : σ) :
    processByRow coordinate width height proc coordRow s =
      forLoop 0 height (fun s row => proc row (rowAt coordinate width coordRow row) width s) s := by
  have hloop : ∀ n, forLoop 0 n (fun (st : Buf ℕ Point × σ) row =>
      (copyRow coordinate width st.1 row, proc row (copyRow coordinate width st.1 row) width st.2)) (coordRow, s) =
      (forLoop 0 n (copyRow coordinate width) coordRow,
        forLoop 0 n (fun s row => proc row (rowAt coordinate width coordRow row) width s) s) := by
    intro n
    induction n with
    | zero => rfl
    | succ n ih =>
      rw [forLoop_succ (Nat.zero_le n), ih, forLoop_succ (Nat.zero_le n), forLoop_succ (Nat.zero_le n), rowAt,
        forLoop_succ (Nat.zero_le n)]
  exact congrArg Prod.snd (hloop height)

/-- Every cell is stored once and no byte outside of the array is loaded; the callback then gets the rows one after
the other, with the colour of each point decided by its own three bytes. -/
theorem pixel_layout (bytes : ℤ → byte) (width height : ℕ) (stale : ℤ → Point) (rowHeap : ℕ → Point) :
    let s := makeStandardCoordinate (Buf.malloc bytes) width height (Buf.malloc stale)
    (s.coordinate.stores.map Prod.fst = (List.range (height * width)).map Nat.cast ∧
      ∀ i ∈ s.arr.reads, 0 ≤ i ∧ i < 3 * width * height) ∧
    ∃ rows : ℕ → Buf ℕ Point,
      (∀ (σ : Type) (proc : ℕ → Buf ℕ Point → ℕ → σ → σ) (t : σ),
        processByRow s.coordinate width height proc (Buf.malloc rowHeap) t =
          forLoop 0 height (fun t i => proc i (rows i) width t) t) ∧
      ∀ i < height, ∀ x < width,
        let start : ℤ := 3 * (i * width + x)
        (rows i).get x = ⟨x, i, if 65536 * (bytes start).toNat + 256 * (bytes (start + 1)).toNat +
          (bytes (start + 2)).toNat ≤ 0xaaaaaa then DOT else BLANK⟩ := by
  intro s
  have hcover := covered_makeStandardCoordinate bytes width height stale
  have hfill := filled_makeStandardCoordinate (Buf.malloc bytes) width height (Buf.malloc stale)
  refine ⟨⟨hcover.stores, fun i hi => ?_⟩, rowAt s.coordinate width (Buf.malloc rowHeap),
    fun σ proc t => processByRow_eq _ _ _ _ _ _, fun i hi x hx => ?_⟩
  · rw [← List.mem_reverse, hcover.reads] at hi
    obtain ⟨m, hm, rfl⟩ := List.mem_map.1 hi
    have hlt : m < 3 * (height * width) := List.mem_range.1 hm
    have hsize : 3 * (height * width) = 3 * width * height := by ring
    rw [hsize] at hlt
    exact ⟨Int.natCast_nonneg m, by exact_mod_cast hlt⟩
  · intro start
    rw [get_rowAt _ _ _ hx, hfill.2 x hx i (.inl hi), pixel, colorOf_eq]
    rfl

end CWorkspace.Pic
