import CWorkspace.Bmp.Format

/-!
# `Validate`

Which files `Validate` accepts, and what it leaves for `Decode`. Every check it makes is one on the file (`Headed`) or
one on the platform (`Admits`); no length or size that comes out of it has wrapped.
-/

namespace CWorkspace.Bmp
open BinaryFile

section
variable {data : List UInt8}

theorem readPaletteFrom_eq_some_iff {colors i pos : ℕ} {palette : Block BmpPaletteEntry}
    {r : Block BmpPaletteEntry × BinaryFile} : readPaletteFrom i colors palette ⟨data, pos⟩ = some r ↔
    (0 < colors → pos + 4 * colors ≤ data.length) ∧
      r = (palette.storeAll i ((List.range colors).map fun k => entryAt data (pos + 4 * k)),
        ⟨data, pos + 4 * colors⟩) := by
  induction colors generalizing i pos palette with
  | zero =>
    unfold readPaletteFrom
    exact ⟨fun h => ⟨by omega, (Option.some.inj h).symm⟩, fun h => congrArg some h.2.symm⟩
  | succ colors ih =>
    have hnext : (fun k => entryAt data (pos + 4 * (k + 1))) = fun k => entryAt data (pos + 4 + 4 * k) := by
      funext k
      congr 1
      omega
    unfold readPaletteFrom
    rw [bind_iff_of fun _ => fread_eq_some_iff, ih, getD_take_drop (by omega), getD_take_drop (by omega),
      getD_take_drop (by omega), getD_take_drop (by omega), List.range_succ_eq_map, List.map_cons, List.map_map,
      Block.storeAll, show (fun k => entryAt data (pos + 4 * k)) ∘ Nat.succ = _ from hnext, Nat.mul_succ,
      Nat.add_assoc pos 4, Nat.add_comm 4, ← and_assoc]
    exact and_congr (by omega) (by push_cast; rfl)

def paletteOf (mem : Memory) (data : List UInt8) : Block BmpPaletteEntry :=
  if (infoOf data).bits ≤ 8 then
    (Block.malloc (2 ^ (infoOf data).bits) mem.palette).storeAll 0
      ((List.range (2 ^ (infoOf data).bits)).map (entryOf data))
  else Block.malloc 0 mem.palette

def paletteEnd (data : List UInt8) : ℕ :=
  if (infoOf data).bits ≤ 8 then BMP_HEADER_SIZE + (infoOf data).infoSize + 4 * 2 ^ (infoOf data).bits else 34

theorem validatePalette_eq_some_iff {p : Platform} {mem : Memory} (r : Block BmpPaletteEntry × BinaryFile) :
    validatePalette p mem (infoOf data) ⟨data, 34⟩ = some r ↔
      ((infoOf data).bits ≤ 8 → mem.gives (4 * 2 ^ (infoOf data).bits) = true ∧
        ((infoOf data).infoSize ≤ p.LONG_MAX ∧
          (p.LONG_MAX < UINT32_MAX → 14 + (infoOf data).infoSize ≤ p.LONG_MAX)) ∧
        BMP_HEADER_SIZE + (infoOf data).infoSize + 4 * 2 ^ (infoOf data).bits ≤ data.length) ∧
      r = (paletteOf mem data, ⟨data, paletteEnd data⟩) := by
  have hlong := p.long_ge
  have hpos := Nat.two_pow_pos (infoOf data).bits
  unfold validatePalette paletteOf paletteEnd
  split_ifs with hbits
  · simp only [guard_eq_some_iff, bind_iff_of fun _ => fseek_eq_some_iff, readPalette, readPaletteFrom_eq_some_iff,
      Nat.one_shiftLeft, p.canMakeLong_iff (infoSize_le data), true_and, hpos, forall_const]
    rw [Nat.mul_comm _ BMP_PALETTE_ENTRY_SIZE, forall_prop_of_true hbits]
    simp only [and_assoc]
    refine and_congr_right fun _ => and_congr_right fun _ => and_congr ?_ Iff.rfl
    show ¬ (UINT32_MAX > p.LONG_MAX ∧ (infoOf data).infoSize > p.LONG_MAX - 14) ↔ _
    omega
  · exact ⟨fun h => ⟨fun hle => absurd hle hbits, (Option.some.inj h).symm⟩, fun h => congrArg some h.2.symm⟩

/-- What `Validate` leaves. -/
def contextOf (mem : Memory) (flags : UInt32) (data : List UInt8) : ReadContext where
  flags := flags
  header := headerOf data
  info := infoOf data
  lines := linesOf data
  fileLineLen := fileLen data
  rgbLineLen := rgbLen flags (widthOf data)
  palette := paletteOf mem data
  fileData := Block.malloc (fileLen data) mem.fileData
  rgbData := Block.malloc (linesOf data * rgbLen flags (widthOf data)) mem.rgbData

section
variable (mem : Memory) (flags : UInt32) (data : List UInt8)

@[simp] theorem contextOf_header : (contextOf mem flags data).header = headerOf data := rfl
@[simp] theorem contextOf_info : (contextOf mem flags data).info = infoOf data := rfl
@[simp] theorem contextOf_lines : (contextOf mem flags data).lines = linesOf data := rfl
@[simp] theorem contextOf_fileLineLen : (contextOf mem flags data).fileLineLen = fileLen data := rfl
@[simp] theorem contextOf_rgbLineLen : (contextOf mem flags data).rgbLineLen = rgbLen flags (widthOf data) := rfl

end

/-- The length of a line of the output is what it is to be, where it can be counted. -/
theorem rgbLineLen_eq {p : Platform} {flags : UInt32} {width : ℕ} (hmul : width * 3 ≤ p.SIZE_MAX)
    (halign : flags &&& BMPREAD_BYTE_ALIGN = 0 → lineLen width 24 * 8 ≤ p.SIZE_MAX) :
    (if flags &&& BMPREAD_BYTE_ALIGN ≠ 0 then p.size (width * 3) else p.getLineLength width 24) =
      rgbLen flags width := by
  unfold rgbLen
  split_ifs with hflag
  · exact p.size_eq hmul
  · rw [p.getLineLength_eq (by omega), if_pos (halign (not_not.1 hflag))]

theorem validate_eq_some_iff {p : Platform} {mem : Memory} {flags : UInt32} {r : ReadContext × BinaryFile} :
    validate p mem flags ⟨data, 0⟩ = some r ↔
      Headed flags data ∧ Admits p mem flags data ∧ r = (contextOf mem flags data, ⟨data, paletteEnd data⟩) := by
  have hlines : (if (infoOf data).height < 0 then -(infoOf data).height else (infoOf data).height).toNat =
      linesOf data := by
    unfold linesOf
    split_ifs <;> omega
  have hle : widthOf data ≤ UINT32_MAX ∧ linesOf data ≤ UINT32_MAX := by
    have hwidth := widthOf_lt data
    have hlines := linesOf_le data
    unfold widthOf UINT32_MAX
    omega
  have hpow : isPowerOf2 (widthOf data) = true ∧ isPowerOf2 (linesOf data) = true ↔
      (∃ k, widthOf data = 2 ^ k) ∧ ∃ k, linesOf data = 2 ^ k :=
    and_congr (isPowerOf2_iff hle.1) (isPowerOf2_iff hle.2)
  unfold validate
  simp only [guard_eq_some_iff, bind_iff_of fun _ => readHeader_eq_some_iff,
    bind_iff_of fun _ => readInfo_eq_some_iff, bind_iff_of validatePalette_eq_some_iff, hlines,
    show (infoOf data).width.toNat = widthOf data from rfl, hpow, p.canMakeSizeT_iff hle.1,
    p.canMakeSizeT_iff hle.2, p.canMultiply_iff (show 0 < 3 by omega)]
  constructor
  · rintro ⟨-, hlength, hmagic0, hmagic1, hshape, hcompression, hbits, -, hfile, hmul, hrgb, hnegate, hany, hpalette,
      hgivesFile, -, hsize, hgivesRgb, hr⟩
    have hwidth : 0 < widthOf data := by unfold widthOf; omega
    have hfileBits : fileLen data * 8 ≤ p.SIZE_MAX := p.le_of_getLineLength (by omega) hfile
    have halign : flags &&& BMPREAD_BYTE_ALIGN = 0 → lineLen (widthOf data) 24 * 8 ≤ p.SIZE_MAX := by
      intro hflag
      have hne := hrgb.resolve_left (not_not.2 hflag)
      rw [if_neg (not_not.2 hflag)] at hne
      exact p.le_of_getLineLength (by omega) hne
    have hpos : 0 < rgbLen flags (widthOf data) := by
      have hle := le_rgbLen flags (widthOf data)
      omega
    have hfileLen : p.getLineLength (widthOf data) (infoOf data).bits = fileLen data := by
      rw [p.getLineLength_eq (by omega)]
      exact if_pos hfileBits
    rw [hfileLen] at hgivesFile hr
    rw [rgbLineLen_eq hmul halign] at hsize hgivesRgb hr
    rw [p.canMultiply_iff hpos] at hsize
    rw [p.size_eq hsize] at hgivesRgb hr
    exact ⟨⟨hlength, hmagic0, hmagic1, by omega, ⟨by omega, of_decide_eq_true hnegate⟩, by omega, by omega, hany,
      fun hle => (hpalette hle).2.2⟩, ⟨hfileBits, halign, hsize, fun hle => (hpalette hle).2.1,
      fun hle => (hpalette hle).1, hgivesFile, hgivesRgb⟩, (Option.some.inj hr).symm⟩
  · rintro ⟨hheaded, hadmits, rfl⟩
    have hwidth : 0 < widthOf data := by
      have hpos := hheaded.width
      unfold widthOf
      omega
    have hlinesPos : 0 < linesOf data := by
      have hne := hheaded.height.1
      unfold linesOf
      omega
    have hrgbLen := le_rgbLen flags (widthOf data)
    have hbits := hheaded.bits
    have hfile := hadmits.fileBits
    have hmul : widthOf data * 3 ≤ p.SIZE_MAX := by
      have := Nat.mul_le_mul hlinesPos hrgbLen
      have := hadmits.rgbSize
      omega
    have hlinesLe : linesOf data ≤ p.SIZE_MAX :=
      (Nat.le_mul_of_pos_right _ (by omega)).trans hadmits.rgbSize
    have hfileLen : p.getLineLength (widthOf data) (infoOf data).bits = fileLen data := by
      rw [p.getLineLength_eq (by omega)]
      exact if_pos hfile
    have hfilePos : widthOf data ≤ fileLen data * 8 := by
      unfold fileLen lineLen
      rcases hbits with hb | hb | hb | hb <;> rw [hb] <;> omega
    have hrgb : flags &&& BMPREAD_BYTE_ALIGN ≠ 0 ∨ rgbLen flags (widthOf data) ≠ 0 := .inr (by omega)
    have hheight := hheaded.height
    have hcompression := hheaded.compression
    have hshape := hheaded.width
    rw [hfileLen, rgbLineLen_eq hmul hadmits.rgbBits, p.canMultiply_iff (by omega), p.size_eq hadmits.rgbSize]
    exact ⟨by have := hheaded.length; omega, hheaded.length, hheaded.magic0, hheaded.magic1, by omega, by omega,
      by omega, by omega, by omega, hmul, hrgb, decide_eq_true hheight.2, hheaded.anySize,
      fun hle => ⟨hadmits.givesPalette hle, hadmits.palette hle, hheaded.palette hle⟩, hadmits.givesFile, hlinesLe,
      hadmits.rgbSize, hadmits.givesRgb, rfl⟩

end

end CWorkspace.Bmp
