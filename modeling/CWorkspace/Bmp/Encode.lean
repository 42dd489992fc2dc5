import CWorkspace.Bmp.Format

/-!
# Writing a bitmap

`encode` writes an image in 24 bits, bottom line first, the way a paint program would. It is read back as that image, so
what `WellFormed` and `pictureOf` say of a file is what is meant by a bitmap.
-/

namespace CWorkspace.Bmp
open BinaryFile

section
variable {α : Type} {n len : ℕ} {piece : ℕ → List α} (hlen : ∀ i, (piece i).length = len)
include hlen

theorem length_flatMap_range : ((List.range n).flatMap piece).length = n * len := by
  induction n with
  | zero => rw [Nat.zero_mul]; rfl
  | succ n ih =>
    rw [List.range_succ, List.flatMap_append, List.length_append, ih, List.flatMap_singleton, hlen, Nat.succ_mul]

theorem getD_flatMap_range {i j : ℕ} (hi : i < n) (hj : j < len) (d : α) :
    ((List.range n).flatMap piece).getD (i * len + j) d = (piece i).getD j d := by
  induction n with
  | zero => omega
  | succ n ih =>
    have hprev := length_flatMap_range hlen (n := n)
    rw [List.range_succ, List.flatMap_append, List.flatMap_singleton]
    rcases Nat.lt_succ_iff_lt_or_eq.1 hi with hi | rfl
    · have hle : (i + 1) * len ≤ n * len := Nat.mul_le_mul_right _ hi
      rw [Nat.succ_mul] at hle
      rw [List.getD_append _ _ _ _ (by omega), ih hi]
    · rw [List.getD_append_right _ _ _ _ (by omega), hprev, Nat.add_sub_cancel_left]

end

/-! ### The file -/

section
variable (width lines : ℕ)

def headersFor : List UInt8 :=
  [0x42, 0x4d] ++ littleBytes 4 (54 + lines * lineLen width 24) ++ littleBytes 4 0 ++ littleBytes 4 54 ++
    littleBytes 4 40 ++ littleBytes 4 width ++ littleBytes 4 lines ++ littleBytes 2 1 ++ littleBytes 2 24 ++
    List.replicate 24 0

def pixelBytes (c : Color) : List UInt8 := [c.blue, c.green, c.red]

def rowBytes (row : ℕ → Color) : List UInt8 :=
  (List.range width).flatMap (fun x => pixelBytes (row x)) ++ List.replicate (lineLen width 24 - width * 3) 0

def encode (image : ℕ → ℕ → Color) : List UInt8 :=
  headersFor width lines ++ (List.range lines).flatMap fun i => rowBytes width (image (lines - 1 - i))

end

section
variable {width lines : ℕ} {image : ℕ → ℕ → Color}

theorem headersFor_length : (headersFor width lines).length = 54 := rfl

theorem rowBytes_length (row : ℕ → Color) : (rowBytes width row).length = lineLen width 24 := by
  unfold rowBytes
  rw [List.length_append, length_flatMap_range (show ∀ i, (pixelBytes (row i)).length = 3 from fun _ => rfl),
    List.length_replicate]
  unfold lineLen
  omega

theorem rowBytes_getD {row : ℕ → Color} {x k : ℕ} (hx : x < width) (hk : k < 3) :
    (rowBytes width row).getD (3 * x + k) 0 = (pixelBytes (row x)).getD k 0 := by
  have hpixel : ∀ x, (pixelBytes (row x)).length = 3 := fun _ => rfl
  have hlength := length_flatMap_range (n := width) hpixel
  unfold rowBytes
  rw [List.getD_append _ _ _ _ (by omega), Nat.mul_comm 3 x]
  exact getD_flatMap_range hpixel hx hk 0

theorem infoOf_encode (image : ℕ → ℕ → Color) (hwidth : width < 2 ^ 31) (hlines : lines < 2 ^ 31) :
    infoOf (encode width lines image) = ⟨40, width, lines, 1, 24, 0⟩ := by
  have hnum : ∀ v : ℕ, v < 2 ^ 31 → toInt32 (littleEndian (littleBytes 4 v)) = v := by
    intro v hv
    rw [littleEndian_littleBytes, Nat.mod_eq_of_lt (by omega), toInt32, if_pos hv]
  show BmpInfo.mk (littleEndian (littleBytes 4 40)) (toInt32 (littleEndian (littleBytes 4 width)))
    (toInt32 (littleEndian (littleBytes 4 lines))) (littleEndian (littleBytes 2 1)) (littleEndian (littleBytes 2 24))
    (littleEndian (littleBytes 4 0)) = _
  rw [hnum width hwidth, hnum lines hlines]
  rfl

theorem dataOffset_encode : (headerOf (encode width lines image)).dataOffset = 54 := rfl

variable (hwidth : 0 < width ∧ width < 2 ^ 31) (hlines : 0 < lines ∧ lines < 2 ^ 31)
include hwidth hlines

theorem sizes_encode (image : ℕ → ℕ → Color) :
    widthOf (encode width lines image) = width ∧ linesOf (encode width lines image) = lines ∧
    fileLen (encode width lines image) = lineLen width 24 := by
  unfold fileLen widthOf linesOf
  rw [infoOf_encode image hwidth.2 hlines.2]
  exact ⟨rfl, rfl, rfl⟩

theorem wellFormed_encode {flags : UInt32} (hflags : flags &&& BMPREAD_ANY_SIZE ≠ 0) :
    WellFormed flags (encode width lines image) := by
  obtain ⟨-, hlinesOf, hfileLen⟩ := sizes_encode hwidth hlines image
  have hinfo := infoOf_encode image hwidth.2 hlines.2
  have hlength : (encode width lines image).length = 54 + lines * lineLen width 24 := by
    unfold encode
    rw [List.length_append, headersFor_length, length_flatMap_range fun _ => rowBytes_length _]
  exact {
    length := by omega
    magic0 := rfl
    magic1 := rfl
    width := by rw [hinfo]; dsimp only; omega
    height := by rw [hinfo]; dsimp only; omega
    compression := by rw [hinfo]
    bits := by rw [hinfo]; dsimp only; omega
    anySize := .inl hflags
    palette := by rw [hinfo]; dsimp only; omega
    lines := by rw [dataOffset_encode, hlinesOf, hfileLen, hlength] }

theorem lineOf_encode {i j : ℕ} (hi : i < lines) (hj : j < lineLen width 24) :
    lineOf (encode width lines image) i j = (rowBytes width (image (lines - 1 - i))).getD j 0 := by
  have hfileLen := (sizes_encode hwidth hlines image).2.2
  have hheaders : (headersFor width lines).length = 54 := headersFor_length
  unfold lineOf
  rw [dataOffset_encode, hfileLen]
  unfold encode
  rw [List.getD_append_right _ _ _ _ (by omega), hheaders, Nat.add_assoc, Nat.add_sub_cancel_left,
    getD_flatMap_range (fun _ => rowBytes_length _) hi hj]

theorem pictureOf_encode {y x : ℕ} (hy : y < lines) (hx : x < width) :
    pictureOf (encode width lines image) y x = image y x := by
  have hlinesOf := (sizes_encode hwidth hlines image).2.1
  have hlen : 3 * width ≤ lineLen width 24 := by
    unfold lineLen
    omega
  have hbyte : ∀ k < 3, lineOf (encode width lines image) (lines - 1 - y) (3 * x + k) =
      (pixelBytes (image y x)).getD k 0 := by
    intro k hk
    rw [lineOf_encode hwidth hlines (by omega) (by omega), rowBytes_getD hx hk,
      show lines - 1 - (lines - 1 - y) = y by omega]
  unfold pictureOf
  rw [infoOf_encode image hwidth.2 hlines.2, hlinesOf]
  dsimp only
  rw [if_neg (by omega)]
  unfold colorAt pixelOf
  rw [infoOf_encode image hwidth.2 hlines.2, if_pos rfl, hbyte 2 (by omega), hbyte 1 (by omega)]
  have hblue := hbyte 0 (by omega)
  rw [Nat.add_zero] at hblue
  rw [hblue]
  rfl

end

end CWorkspace.Bmp
