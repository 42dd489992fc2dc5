import CWorkspace.Bmp.Read
import Mathlib.Tactic.SplitIfs

/-!
# Scan lines

`pixelOf` says which colour a pixel of a scan line has, for every depth alike: pixels of fewer than eight bits are
packed from the high bits of a byte on. Each decoder paints the pixels of its line and stays inside of the three
blocks (`Decoded`), whatever is in the line.
-/

namespace CWorkspace.Bmp

structure Color where
  red : UInt8
  green : UInt8
  blue : UInt8
deriving DecidableEq

def Color.component (c : Color) : ℕ → UInt8
  | 0 => c.red
  | 1 => c.green
  | _ => c.blue

def BmpPaletteEntry.color (entry : BmpPaletteEntry) : Color := ⟨entry.red, entry.green, entry.blue⟩

/-- The number of pixel `x` of a line, at `bits` bits. -/
def sample (bits : ℕ) (line : ℕ → UInt8) (x : ℕ) : ℕ :=
  (line (x * bits / 8)).toNat >>> (8 - bits - x * bits % 8) % 2 ^ bits

/-- The colour of pixel `x` of a line; without a palette blue comes first. -/
def pixelOf (bits : ℕ) (palette : ℕ → Color) (line : ℕ → UInt8) (x : ℕ) : Color :=
  if bits = 24 then ⟨line (3 * x + 2), line (3 * x + 1), line (3 * x)⟩ else palette (sample bits line x)

/-- The bytes that have pixels in them. -/
def bytesOf (width bits : ℕ) : ℕ := (width * bits + 7) / 8

namespace LineState

def pixel (bits : ℕ) (s : LineState) (x : ℕ) : Color :=
  pixelOf bits (fun i => (s.palette.get i).color) (fun i => s.fileData.get i) x

def putRgb (s : LineState) (c : Color) : LineState := ((s.put c.red).put c.green).put c.blue

end LineState

/-- A line of `width` pixels fits in all the blocks. -/
structure Fits (bits width : ℕ) (s : LineState) : Prop where
  pFile : s.pFile = 0
  file : s.fileData.Safe
  fileSize : bytesOf width bits ≤ s.fileData.size
  palette : s.palette.Safe
  paletteSize : bits ≤ 8 → 2 ^ bits ≤ s.palette.size

/-- The first `x` pixels are decoded, and no access was outside of the blocks. -/
structure Decoded (bits width : ℕ) (s₀ : LineState) (x : ℕ) (s : LineState) : Prop where
  le : x ≤ width
  pRgb : s.pRgb = s₀.pRgb + 3 * x
  rgbData : Block.Painted s₀.rgbData s.rgbData s₀.pRgb (3 * x) fun j =>
    (s₀.pixel bits (j / 3)).component (j % 3)
  fileData : Block.Loaded s₀.fileData s.fileData
  file : s.fileData.Safe
  paletteData : Block.Loaded s₀.palette s.palette
  palette : s.palette.Safe

namespace Decoded
variable {bits width x : ℕ} {s₀ s : LineState}

theorem zero (h : Fits bits width s₀) : Decoded bits width s₀ 0 s₀ := by
  refine ⟨Nat.zero_le _, by simp, Block.Painted.zero _ _ _, .refl _, h.file, .refl _, h.palette⟩

theorem putRgb (h : Decoded bits width s₀ x s) (hx : x < width) {c : Color} (hc : s₀.pixel bits x = c) :
    Decoded bits width s₀ (x + 1) (s.putRgb c) := by
  have hcell : ∀ k < 3, (s₀.pixel bits ((3 * x + k) / 3)).component ((3 * x + k) % 3) = c.component k := by
    intro k hk
    rw [← hc, show (3 * x + k) / 3 = x by omega, show (3 * x + k) % 3 = k by omega]
  have hpaint := ((h.rgbData.store (hcell 0 (by omega))).store (hcell 1 (by omega))).store (hcell 2 (by omega))
  refine ⟨hx, ?_, ?_, h.fileData, h.file, h.paletteData, h.palette⟩
  · show s.pRgb + 1 + 1 + 1 = _
    rw [h.pRgb]
    push_cast
    omega
  · have h0 : s₀.pRgb + ((3 * x + 0 : ℕ) : ℤ) = s.pRgb := by rw [h.pRgb]; push_cast; omega
    have h1 : s₀.pRgb + ((3 * x + 0 + 1 : ℕ) : ℤ) = s.pRgb + 1 := by rw [h.pRgb]; push_cast; omega
    have h2 : s₀.pRgb + ((3 * x + 0 + 1 + 1 : ℕ) : ℤ) = s.pRgb + 1 + 1 := by rw [h.pRgb]; push_cast; omega
    simp only [Nat.add_zero] at h0 h1 h2 hpaint
    rw [h0, h1, h2] at hpaint
    exact hpaint

theorem loadFile (h : Decoded bits width s₀ x s) {i : ℕ} (hi : i < s₀.fileData.size) (pFile : ℤ) :
    Decoded bits width s₀ x { s with fileData := (s.fileData.load i).2, pFile := pFile } := by
  have hsize := h.fileData.size
  exact ⟨h.le, h.pRgb, h.rgbData, h.fileData.load i, h.file.load (by omega), h.paletteData, h.palette⟩

theorem putColor (h : Decoded bits width s₀ x s) (hx : x < width) {lookup : ℕ} (hlookup : lookup < s₀.palette.size)
    (hc : s₀.pixel bits x = (s₀.palette.get lookup).color) : Decoded bits width s₀ (x + 1) (s.putColor lookup) := by
  have hsize := h.paletteData.size
  have hload : Decoded bits width s₀ x { s with palette := (s.palette.load lookup).2 } :=
    ⟨h.le, h.pRgb, h.rgbData, h.fileData, h.file, h.paletteData.load _, h.palette.load (by omega)⟩
  have hget := h.paletteData.get lookup
  exact hload.putRgb hx (hc.trans (congrArg BmpPaletteEntry.color hget.symm))

end Decoded

/-! ### The decoders -/

/-- `p_file` points to the byte in which pixel `x` begins. -/
def Aligned (bits x : ℕ) (s : LineState) : Prop := x * bits % 8 = 0 ∧ s.pFile = (x * bits / 8 : ℕ)

section
variable {bits width : ℕ} {s₀ : LineState} (h : Fits bits width s₀)
include h

/-- A round decodes one pixel at least, and reaches the next byte or the end of the line. -/
theorem whileBelow_decoded {body : LineState → LineState}
    (hbody : ∀ x s, x < width → Decoded bits width s₀ x s → Aligned bits x s →
      ∃ x', x < x' ∧ Decoded bits width s₀ x' (body s) ∧ (x' = width ∨ Aligned bits x' (body s))) :
    Decoded bits width s₀ width (LineState.whileBelow (s₀.pRgb + width * 3) body s₀) := by
  set pRgbEnd := s₀.pRgb + width * 3 with hend
  have hround : ∀ s, (∃ x, Decoded bits width s₀ x s ∧ (x = width ∨ Aligned bits x s)) →
      decide (s.pRgb < pRgbEnd) = true →
      (∃ x, Decoded bits width s₀ x (body s) ∧ (x = width ∨ Aligned bits x (body s))) ∧
        (pRgbEnd - (body s).pRgb).toNat < (pRgbEnd - s.pRgb).toNat := by
    rintro s ⟨x, hs, hx⟩ hlt
    have hpos := hs.pRgb
    have hlt := of_decide_eq_true hlt
    obtain ⟨x', hxx', hs', hx'⟩ := hbody x s (by omega) hs (hx.resolve_left (by omega))
    have hpos' := hs'.pRgb
    have hle := hs'.le
    exact ⟨⟨x', hs', hx'⟩, by omega⟩
  have hstart : Aligned bits 0 s₀ := ⟨by simp, by rw [h.pFile]; simp⟩
  obtain ⟨⟨x, hs, -⟩, hstop⟩ := whileLoop_inv
    (P := fun s => ∃ x, Decoded bits width s₀ x s ∧ (x = width ∨ Aligned bits x s))
    (m := fun s => (pRgbEnd - s.pRgb).toNat) hround (le_refl _) ⟨0, .zero h, .inr hstart⟩
  have hpos := hs.pRgb
  have hle := hs.le
  have hnot := of_decide_eq_false hstop
  obtain rfl : x = width := by omega
  exact hs

omit h in
theorem Fits.lookup (h : Fits bits width s₀) (hbits : bits ≤ 8) (line : ℕ → UInt8) (x : ℕ) :
    sample bits line x < s₀.palette.size :=
  lt_of_lt_of_le (Nat.mod_lt _ (Nat.two_pow_pos bits)) (h.paletteSize hbits)

end

theorem decode24_decoded {width : ℕ} {s₀ : LineState} (h : Fits 24 width s₀) :
    Decoded 24 width s₀ width (decode24 (s₀.pRgb + width * 3) s₀) := by
  refine whileBelow_decoded h fun x s hx hs hal => ⟨x + 1, Nat.lt_succ_self x, ?_, .inr ⟨by omega, ?_⟩⟩
  · have hfile : s.pFile = (3 * x : ℕ) := by rw [hal.2]; congr 1; omega
    have hsize := h.fileSize
    unfold bytesOf at hsize
    have hload := ((hs.loadFile (i := 3 * x + 2) (by omega) (s.pFile + 3)).loadFile (i := 3 * x + 1) (by omega)
      (s.pFile + 3)).loadFile (i := 3 * x) (by omega) (s.pFile + 3)
    have hpixel : s₀.pixel 24 x =
        ⟨s.fileData.get (3 * x + 2 : ℕ), s.fileData.get (3 * x + 1 : ℕ), s.fileData.get (3 * x : ℕ)⟩ := by
      rw [hs.fileData.get, hs.fileData.get, hs.fileData.get]
      rfl
    have hput := hload.putRgb hx hpixel
    have hstep : ((s.copy 2).copy 0).copy (-2) = LineState.putRgb { s with
        fileData := (((s.fileData.load (3 * x + 2 : ℕ)).2.load (3 * x + 1 : ℕ)).2.load (3 * x : ℕ)).2
        pFile := s.pFile + 3 } ⟨s.fileData.get (3 * x + 2 : ℕ), s.fileData.get (3 * x + 1 : ℕ),
          s.fileData.get (3 * x : ℕ)⟩ := by
      have h0 : s.pFile + 2 = (3 * x + 2 : ℕ) := by rw [hfile]; push_cast; omega
      have h1 : s.pFile + 1 + 0 = (3 * x + 1 : ℕ) := by rw [hfile]; push_cast; omega
      have h2 : s.pFile + 1 + 1 + -2 = (3 * x : ℕ) := by rw [hfile]; omega
      have h3 : s.pFile + 1 + 1 + 1 = s.pFile + 3 := by omega
      simp only [LineState.copy, LineState.putRgb, LineState.put, Block.load_fst, Block.get_load, h0, h1, h2, h3]
    rw [hstep]
    exact hput
  · show s.pFile + 1 + 1 + 1 = _
    rw [hal.2]
    omega

theorem decode8_decoded {width : ℕ} {s₀ : LineState} (h : Fits 8 width s₀) :
    Decoded 8 width s₀ width (decode8 (s₀.pRgb + width * 3) s₀) := by
  refine whileBelow_decoded h fun x s hx hs hal => ⟨x + 1, Nat.lt_succ_self x, ?_, .inr ⟨by omega, ?_⟩⟩
  · have hfile : s.pFile = x := by rw [hal.2]; congr 1; omega
    have hsize := h.fileSize
    unfold bytesOf at hsize
    have hsample : (s.fileData.get s.pFile).toNat = sample 8 (fun i => s₀.fileData.get i) x := by
      have hlt := (s₀.fileData.get x).toNat_lt
      rw [hs.fileData.get, hfile, sample, show x * 8 / 8 = x by omega, show x * 8 % 8 = 0 by omega]
      exact (Nat.mod_eq_of_lt hlt).symm
    have hload := hs.loadFile (i := x) (by omega) (s.pFile + 1)
    rw [← hfile] at hload
    refine hload.putColor hx ?_ ?_
    · show (s.fileData.get s.pFile).toNat < _
      rw [hsample]
      exact h.lookup (by omega) _ _
    · show _ = (s₀.palette.get (s.fileData.get s.pFile).toNat).color
      rw [hsample]
      rfl
  · show s.pFile + 1 = _
    rw [hal.2]
    omega

theorem high_nibble (byte : UInt8) : (byte.toNat &&& 0xf0) >>> 4 = byte.toNat >>> 4 % 2 ^ 4 := by
  rw [Nat.shiftRight_and_distrib]
  exact Nat.and_two_pow_sub_one_eq_mod _ 4

theorem low_nibble (byte : UInt8) : byte.toNat &&& 0x0f = byte.toNat % 2 ^ 4 := Nat.and_two_pow_sub_one_eq_mod _ 4

theorem Decoded.lookup {bits width x : ℕ} {s₀ s : LineState} (h : Fits bits width s₀) (hs : Decoded bits width s₀ x s)
    (hbits : bits = 1 ∨ bits = 4) (hx : x < width) {i : ℕ} (hfile : s.pFile = i) (hi : x * bits / 8 = i)
    {lookup : ℕ} (hlookup : lookup = (s.fileData.get s.pFile).toNat >>> (8 - bits - x * bits % 8) % 2 ^ bits)
    (step : ℤ) : Decoded bits width s₀ (x + 1) ((s.file step).2.putColor lookup) := by
  have hsize := h.fileSize
  unfold bytesOf at hsize
  have hsample : lookup = sample bits (fun i => s₀.fileData.get i) x := by
    rw [hlookup, hs.fileData.get, hfile, sample, hi]
  have hlt : i < s₀.fileData.size := by
    rcases hbits with rfl | rfl <;> omega
  have hload := hs.loadFile hlt (s.pFile + step)
  rw [← hfile] at hload
  subst hsample
  refine hload.putColor hx (h.lookup (by omega) _ _) ?_
  unfold LineState.pixel pixelOf
  rw [if_neg (by omega)]

theorem nibbles_decoded {width x : ℕ} {s₀ s : LineState} (h : Fits 4 width s₀) (hx : x < width)
    (hs : Decoded 4 width s₀ x s) (hal : Aligned 4 x s) :
    ∃ x', x < x' ∧ Decoded 4 width s₀ x' (nibbles (s₀.pRgb + width * 3) s) ∧
      (x' = width ∨ Aligned 4 x' (nibbles (s₀.pRgb + width * 3) s)) := by
  have heven : x * 4 % 8 = 0 := hal.1
  have hfirst : ((s.fileData.get s.pFile).toNat &&& 0xf0) >>> 4 =
      (s.fileData.get s.pFile).toNat >>> (8 - 4 - x * 4 % 8) % 2 ^ 4 := by
    rw [heven, high_nibble]
  have hhigh := hs.lookup h (.inr rfl) hx hal.2 rfl hfirst 0
  set s' := (s.file 0).2.putColor (((s.fileData.get s.pFile).toNat &&& 0xf0) >>> 4)
  have hround : nibbles (s₀.pRgb + width * 3) s = if s'.pRgb < s₀.pRgb + width * 3 then
    (s'.file 1).2.putColor ((s'.fileData.get s'.pFile).toNat &&& 0x0f) else s' := rfl
  have hpos := hhigh.pRgb
  rw [hround]
  split_ifs with hmore
  · have hfile : s'.pFile = (x * 4 / 8 : ℕ) := by
      show s.pFile + 0 = _
      rw [hal.2, Int.add_zero]
    have hsecond : (s'.fileData.get s'.pFile).toNat &&& 0x0f =
        (s'.fileData.get s'.pFile).toNat >>> (8 - 4 - (x + 1) * 4 % 8) % 2 ^ 4 := by
      rw [low_nibble, show 8 - 4 - (x + 1) * 4 % 8 = 0 by omega]
      rfl
    have hlow := hhigh.lookup h (.inr rfl) (by omega) hfile (by omega) hsecond 1
    refine ⟨x + 1 + 1, by omega, hlow, .inr ⟨by omega, ?_⟩⟩
    show s'.pFile + 1 = _
    rw [hfile]
    omega
  · exact ⟨x + 1, by omega, hhigh, .inl (by have := hhigh.le; omega)⟩

theorem decode4_decoded {width : ℕ} {s₀ : LineState} (h : Fits 4 width s₀) :
    Decoded 4 width s₀ width (decode4 (s₀.pRgb + width * 3) s₀) :=
  whileBelow_decoded h fun _ _ hx hs hal => nibbles_decoded h hx hs hal

theorem bits_decoded {width x : ℕ} {s₀ s : LineState} (h : Fits 1 width s₀) (hx : x < width)
    (hs : Decoded 1 width s₀ x s) (hal : Aligned 1 x s) :
    ∃ x', x < x' ∧ Decoded 1 width s₀ x' (bits (s₀.pRgb + width * 3) s) ∧
      (x' = width ∨ Aligned 1 x' (bits (s₀.pRgb + width * 3) s)) := by
  have hbyte : x % 8 = 0 := by have := hal.1; omega
  have hround : ∀ r : ℕ × LineState,
      (r.1 ≤ 8 ∧ Decoded 1 width s₀ (x + r.1) r.2 ∧ r.2.pFile = (x / 8 : ℕ)) →
      (decide (r.1 < 8) && decide (r.2.pRgb < s₀.pRgb + width * 3)) = true →
      ((bitStep r).1 ≤ 8 ∧ Decoded 1 width s₀ (x + (bitStep r).1) (bitStep r).2 ∧
        (bitStep r).2.pFile = (x / 8 : ℕ)) ∧ 8 - (bitStep r).1 < 8 - r.1 := by
    rintro ⟨bit, s⟩ ⟨-, hs, hfile⟩ hmore
    rw [Bool.and_eq_true, decide_eq_true_eq, decide_eq_true_eq] at hmore
    have hpos := hs.pRgb
    have hlookup : ((s.fileData.get s.pFile).toNat >>> (7 - bit)) &&& 1 =
        (s.fileData.get s.pFile).toNat >>> (8 - 1 - (x + bit) * 1 % 8) % 2 ^ 1 := by
      dsimp only at hmore
      rw [Nat.and_one_is_mod, show 8 - 1 - (x + bit) * 1 % 8 = 7 - bit by omega, Nat.pow_one]
    dsimp only at hs hfile hmore hpos
    have hstep := hs.lookup h (.inl rfl) (by omega) hfile (by omega) hlookup 0
    refine ⟨⟨?_, hstep, ?_⟩, ?_⟩
    · show bit + 1 ≤ 8
      omega
    · show s.pFile + 0 = _
      rw [hfile, Int.add_zero]
    · show 8 - (bit + 1) < 8 - bit
      omega
  obtain ⟨⟨hle, hdec, hfile⟩, hstop⟩ := whileLoop_inv
    (P := fun r : ℕ × LineState => r.1 ≤ 8 ∧ Decoded 1 width s₀ (x + r.1) r.2 ∧ r.2.pFile = (x / 8 : ℕ))
    (m := fun r : ℕ × LineState => 8 - r.1) (s := (0, s)) hround
    (Nat.le_refl 8) ⟨Nat.zero_le 8, hs, by rw [hal.2, Nat.mul_one]⟩
  set r := whileLoop (fun (r : ℕ × LineState) => r.1 < 8 && r.2.pRgb < s₀.pRgb + width * 3) bitStep 8 (0, s)
  have hpos := hdec.pRgb
  have hlast : ¬ (r.1 < 8 ∧ r.2.pRgb < s₀.pRgb + width * 3) := by simpa using hstop
  have hdec' : Decoded 1 width s₀ (x + r.1) (bits (s₀.pRgb + width * 3) s) :=
    ⟨hdec.le, hdec.pRgb, hdec.rgbData, hdec.fileData, hdec.file, hdec.paletteData, hdec.palette⟩
  have hwidth := hdec.le
  refine ⟨x + r.1, by omega, hdec', ?_⟩
  rcases Nat.lt_or_ge r.1 8 with hlt | hge
  · exact .inl (by omega)
  · refine .inr ⟨by omega, ?_⟩
    show r.2.pFile + 1 = _
    rw [hfile]
    omega

theorem decode1_decoded {width : ℕ} {s₀ : LineState} (h : Fits 1 width s₀) :
    Decoded 1 width s₀ width (decode1 (s₀.pRgb + width * 3) s₀) :=
  whileBelow_decoded h fun _ _ hx hs hal => bits_decoded h hx hs hal

theorem decoderOf_decoded {bits width : ℕ} {decoder : ℤ → LineState → LineState}
    (hdecoder : decoderOf bits = some decoder) {s₀ : LineState} (h : Fits bits width s₀) :
    Decoded bits width s₀ width (decoder (s₀.pRgb + width * 3) s₀) := by
  unfold decoderOf at hdecoder
  split at hdecoder
  · cases hdecoder
    exact decode24_decoded h
  · cases hdecoder
    exact decode8_decoded h
  · cases hdecoder
    exact decode4_decoded h
  · cases hdecoder
    exact decode1_decoded h
  · cases hdecoder

end CWorkspace.Bmp
