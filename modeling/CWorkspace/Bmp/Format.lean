import CWorkspace.Bmp.Lines
import Mathlib.Data.Nat.Bitwise
import Mathlib.Tactic.Ring

/-!
# What a bitmap file says

The numbers of the two headers, each at its place in the file (`headerOf`, `infoOf`), where the palette and the scan
lines are, and which files are bitmaps of the kind that is read (`WellFormed`). What a platform has to have room for is
`Supports`: on `lp64` it is memory alone.
-/

namespace CWorkspace.Bmp
open BinaryFile

/-! ### The headers -/

def headerOf (data : List UInt8) : BmpHeader :=
  ⟨data.getD 0 0, data.getD 1 0, numberAt data 2 4, numberAt data 6 4, numberAt data 10 4⟩

def infoOf (data : List UInt8) : BmpInfo :=
  ⟨numberAt data 14 4, toInt32 (numberAt data 18 4), toInt32 (numberAt data 22 4), numberAt data 26 2,
    numberAt data 28 2, numberAt data 30 4⟩

theorem readLittleBytes_eq {bytes shift dest : ℕ} (hdest : dest < 2 ^ shift) (hshift : shift + 8 * bytes ≤ 32) :
    readLittleBytes bytes shift dest = field bytes fun l => dest + 2 ^ shift * littleEndian l := by
  induction bytes generalizing shift dest with
  | zero =>
    funext s
    rw [field_run, if_pos (Nat.zero_le _), List.take_zero]
    rfl
  | succ bytes ih =>
    have hpow : 2 ^ (shift + 8) = 2 ^ shift * 256 := Nat.pow_add 2 shift 8
    have hround : ∀ byte : UInt8, readLittleBytes bytes (shift + 8) ((dest + byte.toNat <<< shift) % 2 ^ 32) =
        field bytes fun l => dest + 2 ^ shift * byte.toNat + 2 ^ (shift + 8) * littleEndian l := by
      intro byte
      have hlt : dest + 2 ^ shift * byte.toNat < 2 ^ (shift + 8) := by
        have := Nat.mul_le_mul_left (2 ^ shift) (Nat.le_of_lt_succ byte.toNat_lt)
        omega
      have hle : 2 ^ (shift + 8) ≤ 2 ^ 32 := Nat.pow_le_pow_right (by omega) (by omega)
      rw [Nat.shiftLeft_eq, Nat.mul_comm byte.toNat, Nat.mod_eq_of_lt (by omega)]
      exact ih hlt (by omega)
    unfold readLittleBytes
    simp only [hround]
    rw [fgetc_eq, field_bind, Nat.add_comm 1]
    refine field_congr fun l hl => ?_
    rcases l with _ | ⟨byte, l⟩
    · cases hl
    · show dest + 2 ^ shift * byte.toNat + 2 ^ (shift + 8) * littleEndian l = _
      rw [littleEndian, hpow]
      ring

theorem readLittleUint32_eq : readLittleUint32 = field 4 littleEndian := by
  unfold readLittleUint32
  rw [readLittleBytes_eq (by omega) (by omega)]
  simp

theorem readLittleInt32_eq : readLittleInt32 = field 4 fun l => toInt32 (littleEndian l) := by
  unfold readLittleInt32
  rw [show readLittleBytes 4 0 0 = _ from readLittleUint32_eq, field_map]

theorem readLittleUint16_eq : readLittleUint16 = field 2 littleEndian := by
  unfold readLittleUint16
  rw [readLittleBytes_eq (by omega) (by omega), field_map]
  refine field_congr fun l hl => ?_
  have := littleEndian_lt l
  rw [hl] at this
  simp only [Nat.pow_zero, Nat.one_mul, Nat.zero_add]
  exact Nat.mod_eq_of_lt (by omega)

theorem getD_take_drop {data : List UInt8} {pos len off : ℕ} (h : off < len) :
    ((data.drop pos).take len).getD off 0 = data.getD (pos + off) 0 := by
  rw [List.getD_eq_getElem?_getD, List.getD_eq_getElem?_getD, List.getElem?_take_of_lt h, List.getElem?_drop]

theorem readHeader_eq : readHeader = field 14 headerOf := by
  unfold readHeader
  simp only [fgetc_eq, readLittleUint32_eq, field_map, field_bind]
  refine field_congr fun l hl => ?_
  have hlast : (l.drop 10).take 4 = l.drop 10 := List.take_of_length_le (by rw [List.length_drop]; omega)
  have hfirst : (l.take 1).getD 0 0 = l.getD 0 0 :=
    (getD_take_drop Nat.one_pos : ((l.drop 0).take 1).getD 0 0 = l.getD (0 + 0) 0)
  unfold headerOf numberAt
  rw [hlast, hfirst, getD_take_drop Nat.one_pos]
  simp only [List.drop_drop]

theorem readInfo_eq : readInfo = field 20 fun l => ⟨numberAt l 0 4, toInt32 (numberAt l 4 4),
    toInt32 (numberAt l 8 4), numberAt l 12 2, numberAt l 14 2, numberAt l 16 4⟩ := by
  unfold readInfo
  simp only [readLittleUint32_eq, readLittleInt32_eq, readLittleUint16_eq, field_map, field_bind]
  refine field_congr fun l hl => ?_
  have hlast : (l.drop 16).take 4 = l.drop 16 := List.take_of_length_le (by rw [List.length_drop]; omega)
  unfold numberAt
  rw [hlast]
  simp only [List.drop_drop]
  rfl

theorem readHeader_eq_some_iff {data : List UInt8} {r : BmpHeader × BinaryFile} :
    readHeader ⟨data, 0⟩ = some r ↔ 14 ≤ data.length ∧ r = (headerOf data, ⟨data, 14⟩) := by
  have hrest : (BinaryFile.mk data 0).rest = data := List.drop_zero
  have hvalue : headerOf (data.take 14) = headerOf data := by
    unfold headerOf
    rw [← data.drop_zero]
    rw [getD_take_drop (by omega), getD_take_drop (by omega), numberAt_take_drop (by omega),
      numberAt_take_drop (by omega), numberAt_take_drop (by omega)]
    simp
  rw [readHeader_eq, field_eq_some_iff, hrest, hvalue]

theorem readInfo_eq_some_iff {data : List UInt8} {r : BmpInfo × BinaryFile} :
    readInfo ⟨data, 14⟩ = some r ↔ 34 ≤ data.length ∧ r = (infoOf data, ⟨data, 34⟩) := by
  rw [readInfo_eq, field_eq_some_iff]
  simp only [rest, numberAt_take_drop (show 0 + 4 ≤ 20 by omega), numberAt_take_drop (show 4 + 4 ≤ 20 by omega),
    numberAt_take_drop (show 8 + 4 ≤ 20 by omega), numberAt_take_drop (show 12 + 2 ≤ 20 by omega),
    numberAt_take_drop (show 14 + 2 ≤ 20 by omega), numberAt_take_drop (show 16 + 4 ≤ 20 by omega), List.length_drop]
  exact and_congr_left fun _ => by omega

/-! ### Lines and sizes -/

def lineLen (width bits : ℕ) : ℕ := (width * bits + 31) / 32 * 4

theorem bytesOf_le_lineLen (width bits : ℕ) : bytesOf width bits ≤ lineLen width bits := by
  unfold bytesOf lineLen
  omega

def rgbLen (flags : UInt32) (width : ℕ) : ℕ :=
  if flags &&& BMPREAD_BYTE_ALIGN ≠ 0 then width * 3 else lineLen width 24

theorem le_rgbLen (flags : UInt32) (width : ℕ) : 3 * width ≤ rgbLen flags width := by
  unfold rgbLen lineLen
  split_ifs <;> omega

namespace Platform
variable {p : Platform}

theorem SIZE_MAX_ge (p : Platform) : 2 ^ 16 - 1 ≤ p.SIZE_MAX :=
  Nat.sub_le_sub_right (Nat.pow_le_pow_right (by omega) p.size_ge) 1

theorem size_eq {n : ℕ} (h : n ≤ p.SIZE_MAX) : p.size n = n := by
  have hpos := Nat.two_pow_pos p.sizeBits
  unfold SIZE_MAX at h
  exact Nat.mod_eq_of_lt (by omega)

theorem canMultiply_iff {a b : ℕ} (hb : 0 < b) : p.canMultiply a b = true ↔ a * b ≤ p.SIZE_MAX := by
  unfold canMultiply
  rw [decide_eq_true_eq, Nat.le_div_iff_mul_le hb]

theorem canMakeSizeT_iff {x : ℕ} (hx : x ≤ UINT32_MAX) : p.canMakeSizeT x = true ↔ x ≤ p.SIZE_MAX := by
  unfold canMakeSizeT
  simp only [Bool.not_eq_true', Bool.and_eq_false_iff, decide_eq_false_iff_not]
  omega

theorem canMakeLong_iff {x : ℕ} (hx : x ≤ UINT32_MAX) : p.canMakeLong x = true ↔ x ≤ p.LONG_MAX := by
  unfold canMakeLong
  simp only [Bool.not_eq_true', Bool.and_eq_false_iff, decide_eq_false_iff_not]
  omega

theorem padBits_eq (n : ℕ) : (32 - (n &&& 0x1f)) &&& 0x1f = (n + 31) / 32 * 32 - n := by
  have hmod : ∀ m, m &&& 0x1f = m % 32 := fun m => Nat.and_two_pow_sub_one_eq_mod m 5
  rw [hmod, hmod]
  omega

/-- A line has its length, or none at all if its bits cannot be counted. -/
theorem getLineLength_eq {width bpp : ℕ} (hbpp : 0 < bpp) : p.getLineLength width bpp =
    if lineLen width bpp * 8 ≤ p.SIZE_MAX then lineLen width bpp else 0 := by
  have hge := p.SIZE_MAX_ge
  unfold getLineLength lineLen
  by_cases hmul : width * bpp ≤ p.SIZE_MAX
  · have hpad := padBits_eq (width * bpp)
    simp only [size_eq hmul, (canMultiply_iff hbpp).2 hmul, Bool.not_true, Bool.false_or]
    rw [hpad]
    unfold canAdd
    by_cases hadd : (width * bpp + 31) / 32 * 4 * 8 ≤ p.SIZE_MAX
    · rw [if_pos hadd, if_neg (by simp; omega), size_eq (by omega)]
      omega
    · rw [if_neg hadd, if_pos (by simp; omega)]
  · have hcan : p.canMultiply width bpp = false := Bool.eq_false_iff.2 fun h => hmul ((canMultiply_iff hbpp).1 h)
    rw [if_pos (by simp [hcan]), if_neg (by omega)]

theorem le_of_getLineLength {width bpp : ℕ} (hbpp : 0 < bpp) (h : p.getLineLength width bpp ≠ 0) :
    lineLen width bpp * 8 ≤ p.SIZE_MAX := by
  by_contra hgt
  exact h (by rw [getLineLength_eq hbpp, if_neg hgt])

end Platform

section
variable {x : UInt32} {i : ℕ}

theorem toNat_bit (hi : i < 32) : (UInt32.ofNat (2 ^ i)).toNat = 2 ^ i :=
  UInt32.toNat_ofNat_of_lt' (Nat.pow_lt_pow_right (by omega) hi)

theorem and_bit_ne_zero_iff (hi : i < 32) : x &&& UInt32.ofNat (2 ^ i) ≠ 0 ↔ x.toNat.testBit i = true := by
  have hpos := Nat.two_pow_pos i
  rw [Ne, ← UInt32.toNat_inj, UInt32.toNat_and, toNat_bit hi, Nat.and_two_pow]
  rcases hbit : x.toNat.testBit i with _ | _
  · simp
  · simp

theorem and_not_bit_iff (hi : i < 32) (hbit : x.toNat.testBit i = true) :
    x &&& ~~~UInt32.ofNat (2 ^ i) = 0 ↔ ∃ k, x.toNat = 2 ^ k := by
  constructor
  · intro hzero
    refine ⟨i, Nat.eq_of_testBit_eq fun j => ?_⟩
    have hnone : (x.toNat &&& (2 ^ 32 - (2 ^ i + 1))).testBit j = false := by
      have := congrArg UInt32.toNat hzero
      rw [UInt32.toNat_and, UInt32.toNat_not, toNat_bit hi] at this
      rw [show 2 ^ 32 - (2 ^ i + 1) = UInt32.size - 1 - 2 ^ i from by rw [Nat.sub_sub, Nat.add_comm 1]; rfl, this]
      exact Nat.zero_testBit j
    rw [Nat.testBit_and, Nat.testBit_two_pow_sub_succ (Nat.pow_lt_pow_right (by omega) hi)] at hnone
    rw [Nat.testBit_two_pow]
    by_cases hj : i = j
    · rw [← hj, hbit, decide_eq_true rfl]
    · rw [Nat.testBit_two_pow_of_ne hj] at hnone
      rw [decide_eq_false hj]
      by_cases hlt : j < 32
      · simpa [hlt] using hnone
      · exact Nat.testBit_lt_two_pow (Nat.lt_of_lt_of_le x.toNat_lt (Nat.pow_le_pow_right (by omega) (by omega)))
  · rintro ⟨k, hk⟩
    rw [hk, Nat.testBit_two_pow, decide_eq_true_eq] at hbit
    have hx : x = UInt32.ofNat (2 ^ i) := by rw [← UInt32.toNat_inj, hk, hbit, toNat_bit hi]
    rw [← hx, UInt32.and_not_self]

/-- The bit that is on is looked for from bit `i` on. -/
theorem isPowerOf2From_iff {fuel : ℕ} (hfuel : 32 < i + fuel) (hi : i ≤ 32)
    (hlow : ∀ j < i, x.toNat.testBit j = false) :
    isPowerOf2From x fuel (UInt32.ofNat (2 ^ i)) = true ↔ ∃ k, x.toNat = 2 ^ k := by
  induction fuel generalizing i with
  | zero => omega
  | succ fuel ih =>
    unfold isPowerOf2From
    rcases Nat.lt_or_ge i 32 with hlt | hge
    · have hpos := Nat.two_pow_pos i
      rw [if_neg (fun h => by have := congrArg UInt32.toNat h; rw [toNat_bit hlt] at this; simp at this)]
      by_cases hbit : x.toNat.testBit i = true
      · rw [if_pos ((and_bit_ne_zero_iff hlt).2 hbit), decide_eq_true_eq, and_not_bit_iff hlt hbit]
      · have hnext : UInt32.ofNat (2 ^ i) <<< 1 = UInt32.ofNat (2 ^ (i + 1)) := by
          rw [← UInt32.toNat_inj, UInt32.toNat_shiftLeft, toNat_bit hlt]
          simp [Nat.shiftLeft_eq, Nat.pow_succ]
        rw [if_neg (fun h => hbit ((and_bit_ne_zero_iff hlt).1 h)), hnext]
        refine ih (by omega) (by omega) fun j hj => ?_
        rcases Nat.lt_succ_iff_lt_or_eq.1 hj with hj | rfl
        · exact hlow j hj
        · exact Bool.eq_false_iff.2 hbit
    · obtain rfl : i = 32 := by omega
      rw [if_pos (show UInt32.ofNat (2 ^ 32) = 0 from UInt32.toNat_inj.1 (by simp))]
      have hzero : x.toNat = 0 := by
        refine Nat.eq_of_testBit_eq fun j => ?_
        rw [Nat.zero_testBit]
        rcases Nat.lt_or_ge j 32 with hj | hj
        · exact hlow j hj
        · exact Nat.testBit_lt_two_pow (Nat.lt_of_lt_of_le x.toNat_lt (Nat.pow_le_pow_right (by omega) hj))
      rw [hzero]
      exact ⟨fun h => (nomatch h), fun ⟨k, hk⟩ => absurd hk (Nat.two_pow_pos k).ne⟩

end

theorem isPowerOf2_iff {x : ℕ} (hx : x ≤ UINT32_MAX) : isPowerOf2 x = true ↔ ∃ k, x = 2 ^ k := by
  have hnat : (UInt32.ofNat x).toNat = x :=
    UInt32.toNat_ofNat_of_lt' (Nat.lt_succ_of_le hx)
  unfold isPowerOf2
  rw [show (1 : UInt32) = UInt32.ofNat (2 ^ 0) from rfl,
    isPowerOf2From_iff (by omega) (Nat.zero_le _) (fun j hj => by omega), hnat]

/-! ### Bitmaps -/

section
variable (data : List UInt8)

def widthOf : ℕ := (infoOf data).width.toNat

/-- The scan lines of a bitmap; they are top-down if the height is negative. -/
def linesOf : ℕ := (infoOf data).height.natAbs

def fileLen : ℕ := lineLen (widthOf data) (infoOf data).bits

def lineOf (i j : ℕ) : UInt8 := data.getD ((headerOf data).dataOffset + i * fileLen data + j) 0

def entryAt (off : ℕ) : BmpPaletteEntry :=
  ⟨data.getD off 0, data.getD (off + 1) 0, data.getD (off + 2) 0, data.getD (off + 3) 0⟩

def entryOf (i : ℕ) : BmpPaletteEntry := entryAt data (BMP_HEADER_SIZE + (infoOf data).infoSize + 4 * i)

/-- The colour of pixel `x` in scan line `i` of the file. -/
def colorAt (i x : ℕ) : Color :=
  pixelOf (infoOf data).bits (fun lookup => (entryOf data lookup).color) (lineOf data i) x

/-- The picture in the file, from the top. -/
def pictureOf (y x : ℕ) : Color :=
  colorAt data (if (infoOf data).height < 0 then y else linesOf data - 1 - y) x

/-- The headers of an uncompressed bitmap. -/
structure Headed (flags : UInt32) (data : List UInt8) : Prop where
  length : 34 ≤ data.length
  magic0 : data.getD 0 0 = 0x42
  magic1 : data.getD 1 0 = 0x4d
  width : 0 < (infoOf data).width
  height : (infoOf data).height ≠ 0 ∧ (infoOf data).height ≠ -2 ^ 31
  compression : (infoOf data).compression = 0
  bits : (infoOf data).bits = 1 ∨ (infoOf data).bits = 4 ∨ (infoOf data).bits = 8 ∨ (infoOf data).bits = 24
  anySize : flags &&& BMPREAD_ANY_SIZE ≠ 0 ∨ (∃ k, widthOf data = 2 ^ k) ∧ ∃ k, linesOf data = 2 ^ k
  palette : (infoOf data).bits ≤ 8 →
    BMP_HEADER_SIZE + (infoOf data).infoSize + 4 * 2 ^ (infoOf data).bits ≤ data.length

/-- All of it is there. -/
structure WellFormed (flags : UInt32) (data : List UInt8) : Prop extends Headed flags data where
  lines : (headerOf data).dataOffset + linesOf data * fileLen data ≤ data.length

end

section
variable (data : List UInt8)

theorem toInt32_bounds {t : ℕ} (ht : t < 256 ^ 4) : -2 ^ 31 ≤ toInt32 t ∧ toInt32 t < 2 ^ 31 := by
  unfold toInt32
  split_ifs <;> omega

theorem widthOf_lt : (infoOf data).width < 2 ^ 31 := (toInt32_bounds (numberAt_lt data 18 4)).2

theorem height_bounds : -2 ^ 31 ≤ (infoOf data).height ∧ (infoOf data).height < 2 ^ 31 :=
  toInt32_bounds (numberAt_lt data 22 4)

theorem linesOf_le : linesOf data ≤ 2 ^ 31 := by
  have h := height_bounds data
  unfold linesOf
  omega

theorem infoSize_le : (infoOf data).infoSize ≤ UINT32_MAX := Nat.le_sub_one_of_lt (numberAt_lt data 14 4)

theorem dataOffset_le : (headerOf data).dataOffset ≤ UINT32_MAX := Nat.le_sub_one_of_lt (numberAt_lt data 10 4)

end

/-- What is computed before the lines are read fits into its types, and there is memory for it. -/
structure Admits (p : Platform) (mem : Memory) (flags : UInt32) (data : List UInt8) : Prop where
  fileBits : fileLen data * 8 ≤ p.SIZE_MAX
  rgbBits : flags &&& BMPREAD_BYTE_ALIGN = 0 → lineLen (widthOf data) 24 * 8 ≤ p.SIZE_MAX
  rgbSize : linesOf data * rgbLen flags (widthOf data) ≤ p.SIZE_MAX
  palette : (infoOf data).bits ≤ 8 →
    (infoOf data).infoSize ≤ p.LONG_MAX ∧ (p.LONG_MAX < UINT32_MAX → 14 + (infoOf data).infoSize ≤ p.LONG_MAX)
  givesPalette : (infoOf data).bits ≤ 8 → mem.gives (4 * 2 ^ (infoOf data).bits) = true
  givesFile : mem.gives (fileLen data) = true
  givesRgb : mem.gives (linesOf data * rgbLen flags (widthOf data)) = true

/-- There is room for the bitmap. -/
structure Supports (p : Platform) (mem : Memory) (flags : UInt32) (data : List UInt8) : Prop
    extends Admits p mem flags data where
  inc : rgbLen flags (widthOf data) ≤ p.PTRDIFF_MAX
  offset : (headerOf data).dataOffset ≤ p.LONG_MAX
  width : widthOf data ≤ p.INT_MAX
  lines : linesOf data ≤ p.INT_MAX

/-- The usual platform with 64 bits. -/
def lp64 : Platform := ⟨64, 2 ^ 63 - 1, 2 ^ 63 - 1, 2 ^ 31 - 1, by omega, by omega⟩

/-- There it has room for any bitmap, as long as there is memory. -/
theorem Headed.supports {mem : Memory} {flags : UInt32} {data : List UInt8} (h : Headed flags data)
    (hmem : ∀ n, mem.gives n = true) : Supports lp64 mem flags data := by
  have hwidth : widthOf data < 2 ^ 31 := by
    have := widthOf_lt data
    unfold widthOf
    omega
  have hlines : linesOf data < 2 ^ 31 := by
    have hbounds := height_bounds data
    have hne := h.height.2
    unfold linesOf
    omega
  have hsize : lp64.SIZE_MAX = 2 ^ 64 - 1 := rfl
  have hlong : lp64.LONG_MAX = 2 ^ 63 - 1 := rfl
  have hptrdiff : lp64.PTRDIFF_MAX = 2 ^ 63 - 1 := rfl
  have hint : lp64.INT_MAX = 2 ^ 31 - 1 := rfl
  have hinfo := infoSize_le data
  have hoffset := dataOffset_le data
  have hfile : fileLen data ≤ 2 ^ 31 * 3 := by
    unfold fileLen lineLen
    rcases h.bits with hb | hb | hb | hb <;> rw [hb] <;> omega
  have hrgb : rgbLen flags (widthOf data) ≤ 2 ^ 31 * 3 := by
    unfold rgbLen lineLen
    split_ifs <;> omega
  have hall : linesOf data * rgbLen flags (widthOf data) ≤ 2 ^ 31 * (2 ^ 31 * 3) :=
    Nat.mul_le_mul (by omega) hrgb
  unfold UINT32_MAX at hinfo hoffset
  exact {
    fileBits := by omega
    rgbBits := fun _ => by unfold lineLen; omega
    rgbSize := by omega
    palette := fun _ => ⟨by omega, fun hlt => by unfold UINT32_MAX at hlt; omega⟩
    givesPalette := fun _ => hmem _
    givesFile := hmem _
    givesRgb := hmem _
    inc := by omega
    offset := by omega
    width := by omega
    lines := by omega }

end CWorkspace.Bmp
