import CWorkspace.Bmp.Encode
import CWorkspace.Bmp.Validate

/-!
# Loading a bitmap

Scan line `i` of the file goes to line `rowOf i` of the output. After `k` lines these are painted, and every access so
far was inside of its block (`LinesDone`), so the loop comes to its end at the last line or at the end of the file.
-/

namespace CWorkspace.Bmp
open BinaryFile

theorem pixelOf_congr {bits width x : ℕ} {palette palette' : ℕ → Color} {line line' : ℕ → UInt8}
    (hbits : bits = 1 ∨ bits = 4 ∨ bits = 8 ∨ bits = 24) (hx : x < width)
    (hpalette : bits ≤ 8 → ∀ lookup < 2 ^ bits, palette lookup = palette' lookup)
    (hline : ∀ j < bytesOf width bits, line j = line' j) :
    pixelOf bits palette line x = pixelOf bits palette' line' x := by
  unfold bytesOf at hline
  unfold pixelOf
  split_ifs with h24
  · subst h24
    rw [hline _ (by omega), hline _ (by omega), hline _ (by omega)]
  · have hsample : sample bits line x = sample bits line' x := by
      unfold sample
      rw [hline _ (by rcases hbits with rfl | rfl | rfl | rfl <;> omega)]
    rw [hsample]
    exact hpalette (by omega) _ (Nat.mod_lt _ (Nat.two_pow_pos bits))

section
variable (flags : UInt32) (data : List UInt8)

/-- The line of the output that scan line `i` of the file goes to; the other way round it is the same. -/
def rowOf (i : ℕ) : ℕ :=
  if (infoOf data).height < 0 ↔ flags &&& BMPREAD_TOP_DOWN ≠ 0 then i else linesOf data - 1 - i

def startOf (i : ℕ) : ℕ := rowOf flags data i * rgbLen flags (widthOf data)

variable {flags data}

theorem rowOf_lt {i : ℕ} (hi : i < linesOf data) : rowOf flags data i < linesOf data := by
  unfold rowOf
  split_ifs <;> omega

theorem rowOf_rowOf {i : ℕ} (hi : i < linesOf data) : rowOf flags data (rowOf flags data i) = i := by
  unfold rowOf
  split_ifs <;> omega

theorem startOf_add_inj {i i' j j' : ℕ} (hi : i < linesOf data) (hi' : i' < linesOf data) (hj : j < 3 * widthOf data)
    (hj' : j' < 3 * widthOf data) (h : startOf flags data i + j = startOf flags data i' + j') : i = i' ∧ j = j' := by
  have hlen := le_rgbLen flags (widthOf data)
  have hrow : ∀ {i j}, j < 3 * widthOf data →
      (startOf flags data i + j) / rgbLen flags (widthOf data) = rowOf flags data i := by
    intro i j hj
    unfold startOf
    rw [Nat.mul_comm, Nat.mul_add_div (by omega), Nat.div_eq_of_lt (by omega), Nat.add_zero]
  have hrows : rowOf flags data i = rowOf flags data i' := by rw [← hrow hj, h, hrow hj']
  have hsame := congrArg (rowOf flags data) hrows
  rw [rowOf_rowOf hi, rowOf_rowOf hi'] at hsame
  subst hsame
  exact ⟨rfl, by omega⟩

theorem startOf_add_le {i : ℕ} (hi : i < linesOf data) :
    startOf flags data i + 3 * widthOf data ≤ linesOf data * rgbLen flags (widthOf data) := by
  have hrow : (rowOf flags data i + 1) * _ ≤ _ :=
    Nat.mul_le_mul_right (rgbLen flags (widthOf data)) (rowOf_lt hi)
  have hlen := le_rgbLen flags (widthOf data)
  rw [Nat.succ_mul] at hrow
  unfold startOf
  omega

theorem keepsOrder_iff {mem : Memory} : keepsOrder (contextOf mem flags data) = true ↔
    ((infoOf data).height < 0 ↔ flags &&& BMPREAD_TOP_DOWN ≠ 0) := by
  unfold keepsOrder
  rw [beq_iff_eq, decide_eq_decide]
  exact not_iff_not

/-! ### `Decode` -/

structure LinesDone (mem : Memory) (flags : UInt32) (data : List UInt8) (first inc : ℤ) (k : ℕ) (s : DecodeState) :
    Prop where
  fp : s.fp = ⟨data, (headerOf data).dataOffset + k * fileLen data⟩
  length : k = 0 ∨ (headerOf data).dataOffset + k * fileLen data ≤ data.length
  pRgb : s.pRgb = first + k * inc
  pLineEnd : s.pLineEnd = s.pRgb + widthOf data * 3
  paletteData : Block.Loaded (paletteOf mem data) s.palette
  palette : s.palette.Safe
  fileSize : s.fileData.size = fileLen data
  file : s.fileData.Safe
  rgbSize : s.rgbData.size = linesOf data * rgbLen flags (widthOf data)
  rgb : s.rgbData.Safe
  unread : s.rgbData.cells.reads = []
  get : ∀ i < k, ∀ j < 3 * widthOf data,
    s.rgbData.get (startOf flags data i + j : ℕ) = (colorAt data i (j / 3)).component (j % 3)
  written : ∀ c : ℤ, s.rgbData.cells.Written c ↔
    ∃ i < k, (startOf flags data i : ℤ) ≤ c ∧ c < startOf flags data i + 3 * widthOf data

theorem paletteOf_painted (mem : Memory) (hbits : (infoOf data).bits ≤ 8) :
    (paletteOf mem data).size = 2 ^ (infoOf data).bits ∧
      ∀ i : ℕ, i < 2 ^ (infoOf data).bits → (paletteOf mem data).get i = entryOf data i := by
  unfold paletteOf
  rw [if_pos hbits]
  have h := Block.painted_storeAll (Block.malloc (2 ^ (infoOf data).bits) mem.palette) 0
    ((List.range (2 ^ (infoOf data).bits)).map (entryOf data)) ⟨0, 0, 0, 0⟩
  rw [List.length_map, List.length_range] at h
  refine ⟨h.size, fun i hi => ?_⟩
  have hget := h.get_of_lt hi
  rw [Int.zero_add] at hget
  rw [hget]
  simp [hi]

theorem paletteOf_safe (mem : Memory) (data : List UInt8) : (paletteOf mem data).Safe := by
  unfold paletteOf
  split_ifs
  · have h := Block.painted_storeAll (Block.malloc (2 ^ (infoOf data).bits) mem.palette) 0
      ((List.range (2 ^ (infoOf data).bits)).map (entryOf data)) ⟨0, 0, 0, 0⟩
    refine h.safe (Block.safe_malloc _ _) (le_refl _) ?_
    rw [List.length_map, List.length_range, Int.zero_add]
    exact le_refl _
  · exact Block.safe_malloc _ _

theorem linesDone_zero (mem : Memory) (first inc : ℤ) : LinesDone mem flags data first inc 0
    ⟨⟨data, (headerOf data).dataOffset⟩, first, first + (infoOf data).width.toNat * 3, paletteOf mem data,
      Block.malloc (fileLen data) mem.fileData,
      Block.malloc (linesOf data * rgbLen flags (widthOf data)) mem.rgbData⟩ where
  fp := by rw [Nat.zero_mul, Nat.add_zero]
  length := .inl rfl
  pRgb := by simp
  pLineEnd := rfl
  paletteData := .refl _
  palette := paletteOf_safe mem data
  fileSize := rfl
  file := Block.safe_malloc _ _
  rgbSize := rfl
  rgb := Block.safe_malloc _ _
  unread := rfl
  get := fun i hi => by omega
  written := fun c => ⟨fun h => absurd h List.not_mem_nil, fun ⟨i, hi, _⟩ => by omega⟩

section
variable {mem : Memory} {first inc : ℤ} {k : ℕ} {s : DecodeState} (h : LinesDone mem flags data first inc k s)
include h

theorem LinesDone.fits {line : List UInt8} (hline : line.length = fileLen data) :
    Fits (infoOf data).bits (widthOf data) ⟨s.pRgb, 0, s.palette, s.fileData.storeAll 0 line, s.rgbData⟩ := by
  have hpaint := Block.painted_storeAll s.fileData 0 line 0
  refine ⟨rfl, hpaint.safe h.file (le_refl _) (by rw [h.fileSize, hline]; omega), ?_, h.palette, fun hle => ?_⟩
  · show _ ≤ (s.fileData.storeAll 0 line).size
    rw [hpaint.size, h.fileSize]
    exact bytesOf_le_lineLen _ _
  · show _ ≤ s.palette.size
    rw [h.paletteData.size, (paletteOf_painted mem hle).1]

variable (hbits : (infoOf data).bits = 1 ∨ (infoOf data).bits = 4 ∨ (infoOf data).bits = 8 ∨ (infoOf data).bits = 24)
include hbits

theorem LinesDone.pixel {line : List UInt8} (hline : line.length = fileLen data)
    (hbytes : ∀ j < fileLen data, line.getD j 0 = lineOf data k j) {x : ℕ} (hx : x < widthOf data) :
    LineState.pixel (infoOf data).bits ⟨s.pRgb, 0, s.palette, s.fileData.storeAll 0 line, s.rgbData⟩ x =
      colorAt data k x := by
  have hpaint := Block.painted_storeAll s.fileData 0 line 0
  refine pixelOf_congr hbits hx (fun hle lookup hlookup => ?_) fun j hj => ?_
  · show (s.palette.get lookup).color = _
    rw [h.paletteData.get, (paletteOf_painted mem hle).2 lookup hlookup]
  · have hlt : j < fileLen data := lt_of_lt_of_le hj (bytesOf_le_lineLen _ _)
    have hget := hpaint.get_of_lt (j := j) (by omega)
    rw [Int.zero_add] at hget
    exact hget.trans (hbytes j hlt)

variable (hfile : 0 < fileLen data) {decoder : ℤ → LineState → LineState}
  (hdecoder : decoderOf (infoOf data).bits = some decoder)
  (hfirst : ∀ i < linesOf data, first + i * inc = (startOf flags data i : ℕ))
include hfile hdecoder hfirst

theorem LinesDone.step (hk : k < linesOf data) {line : List UInt8} {fp : BinaryFile}
    (hread : fread (fileLen data) s.fp = some (line, fp)) :
    LinesDone mem flags data first inc (k + 1) (decodeLine decoder inc line fp s) := by
  rw [h.fp, fread_eq_some_iff, Prod.mk.injEq] at hread
  obtain ⟨hleft, rfl, rfl⟩ := hread
  set line := (data.drop ((headerOf data).dataOffset + k * fileLen data)).take (fileLen data) with hline
  have hlength : line.length = fileLen data := by
    rw [hline, List.length_take, List.length_drop]
    omega
  have hpos : s.pRgb = (startOf flags data k : ℕ) := h.pRgb.trans (hfirst k hk)
  have hdec := decoderOf_decoded hdecoder (h.fits hlength)
  dsimp only at hdec
  unfold decodeLine
  rw [h.pLineEnd]
  set r := decoder (s.pRgb + widthOf data * 3)
    ⟨s.pRgb, 0, s.palette, s.fileData.storeAll 0 line, s.rgbData⟩
  have hrgb : Block.Painted s.rgbData r.rgbData (startOf flags data k : ℕ) (3 * widthOf data) fun j =>
      (colorAt data k (j / 3)).component (j % 3) := by
    rw [← hpos]
    refine hdec.rgbData.congr fun j hj => ?_
    rw [h.pixel hbits hlength (fun j hj => getD_take_drop hj) (by omega)]
  have hnext : (headerOf data).dataOffset + k * fileLen data + fileLen data =
      (headerOf data).dataOffset + (k + 1) * fileLen data := by ring
  refine ⟨by dsimp only; rw [hnext], .inr (by omega), ?_, ?_, h.paletteData.trans hdec.paletteData, hdec.palette,
    ?_, hdec.file, hrgb.size.trans h.rgbSize, ?_, hrgb.reads.trans h.unread, fun i hi j hj => ?_, fun c => ?_⟩
  · show s.pRgb + inc = _
    rw [h.pRgb]
    push_cast
    ring
  · show s.pRgb + widthOf data * 3 + inc = s.pRgb + inc + widthOf data * 3
    ring
  · exact hdec.fileData.size.trans ((Block.painted_storeAll s.fileData 0 line 0).size.trans h.fileSize)
  · refine hrgb.safe h.rgb (Int.natCast_nonneg _) ?_
    rw [h.rgbSize]
    exact_mod_cast startOf_add_le hk
  · show r.rgbData.get _ = _
    rcases Nat.lt_succ_iff_lt_or_eq.1 hi with hi | rfl
    · have hother : ¬ ((startOf flags data k : ℤ) ≤ (startOf flags data i + j : ℕ) ∧
          ((startOf flags data i + j : ℕ) : ℤ) < (startOf flags data k : ℤ) + (3 * widthOf data : ℕ)) := by
        rintro ⟨hle, hlt⟩
        obtain ⟨j', hj', hcell⟩ : ∃ j' < 3 * widthOf data, startOf flags data i + j = startOf flags data k + j' :=
          ⟨startOf flags data i + j - startOf flags data k, by omega, by omega⟩
        have hsame := startOf_add_inj (by omega) hk hj hj' hcell
        omega
      rw [hrgb.get, if_neg hother]
      exact h.get i hi j hj
    · exact hrgb.get_of_lt hj
  · show r.rgbData.cells.Written c ↔ _
    rw [hrgb.written, h.written]
    constructor
    · rintro (hc | ⟨i, hi, hc⟩)
      · exact ⟨k, Nat.lt_succ_self k, by push_cast at hc; exact hc⟩
      · exact ⟨i, by omega, hc⟩
    · rintro ⟨i, hi, hc⟩
      rcases Nat.lt_succ_iff_lt_or_eq.1 hi with hi | rfl
      · exact .inr ⟨i, hi, hc⟩
      · exact .inl (by push_cast; exact hc)

/-- The loop stops at the last line or at the end of the file. -/
theorem LinesDone.run (hinc : inc ≠ 0) {fuel : ℕ} (hfuel : k + fuel = linesOf data) :
    ∃ k', LinesDone mem flags data first inc k'
        (decodeLines decoder (fileLen data) inc (first + linesOf data * inc) fuel s) ∧
      (k' = linesOf data ∨
        k' < linesOf data ∧ data.length < (headerOf data).dataOffset + linesOf data * fileLen data) := by
  induction fuel generalizing k s with
  | zero => exact ⟨k, h, .inl (by omega)⟩
  | succ fuel ih =>
    have hmore : s.pRgb ≠ first + linesOf data * inc := by
      rw [h.pRgb]
      intro heq
      have := mul_right_cancel₀ hinc (add_left_cancel heq)
      omega
    unfold decodeLines
    rw [if_neg hmore]
    rcases hread : fread (fileLen data) s.fp with _ | ⟨line, fp⟩
    · refine ⟨k, h, .inr ⟨by omega, ?_⟩⟩
      have hleft : ¬ fileLen data ≤ data.length - ((headerOf data).dataOffset + k * fileLen data) := by
        intro hle
        rw [h.fp, fread_eq_some_iff.2 ⟨hle, rfl⟩] at hread
        cases hread
      have hnext : (k + 1) * fileLen data ≤ linesOf data * fileLen data := Nat.mul_le_mul_right _ (by omega)
      rw [Nat.succ_mul] at hnext
      omega
    · exact ih (h.step hbits hfile hdecoder hfirst (by omega) hread) (by omega)

end

/-- How far a line of the output is from the one before it. -/
def incOf (flags : UInt32) (data : List UInt8) : ℤ :=
  if (infoOf data).height < 0 ↔ flags &&& BMPREAD_TOP_DOWN ≠ 0 then rgbLen flags (widthOf data)
  else -rgbLen flags (widthOf data)

theorem startOf_eq (i : ℕ) (hi : i < linesOf data) :
    (startOf flags data 0 : ℤ) + i * incOf flags data = (startOf flags data i : ℕ) := by
  unfold startOf rowOf incOf
  split_ifs
  · push_cast
    ring
  · rw [Nat.sub_zero]
    push_cast [Nat.cast_sub (show 1 ≤ linesOf data by omega), Nat.cast_sub (show i ≤ linesOf data - 1 by omega)]
    ring

namespace Headed
variable (h : Headed flags data)
include h

theorem widthOf_pos : 0 < widthOf data := by
  have hpos := h.width
  unfold widthOf
  omega

theorem linesOf_pos : 0 < linesOf data := by
  have hne := h.height.1
  unfold linesOf
  omega

theorem fileLen_pos : 0 < fileLen data := by
  have hpos := h.widthOf_pos
  unfold fileLen lineLen
  rcases h.bits with hb | hb | hb | hb <;> rw [hb] <;> omega

theorem incOf_ne_zero : incOf flags data ≠ 0 := by
  have hpos := h.widthOf_pos
  have hlen := le_rgbLen flags (widthOf data)
  unfold incOf
  split_ifs <;> omega

theorem decoder : ∃ decoder, decoderOf (infoOf data).bits = some decoder := by
  rcases h.bits with hb | hb | hb | hb <;> rw [hb] <;> exact ⟨_, rfl⟩

end Headed

section
variable {p : Platform} {mem : Memory} (h : Headed flags data) {pos : ℕ}

def startState (mem : Memory) (flags : UInt32) (data : List UInt8) : DecodeState :=
  ⟨⟨data, (headerOf data).dataOffset⟩, startOf flags data 0, startOf flags data 0 + (infoOf data).width.toNat * 3,
    paletteOf mem data, Block.malloc (fileLen data) mem.fileData,
    Block.malloc (linesOf data * rgbLen flags (widthOf data)) mem.rgbData⟩

def endOf (flags : UInt32) (data : List UInt8) : ℤ := startOf flags data 0 + linesOf data * incOf flags data

theorem pointers_eq (h : Headed flags data) (mem : Memory) :
    (if keepsOrder (contextOf mem flags data) then 0
      else ((linesOf data - 1) * rgbLen flags (widthOf data) : ℕ) : ℤ) = startOf flags data 0 ∧
    (if keepsOrder (contextOf mem flags data) then ((linesOf data * rgbLen flags (widthOf data) : ℕ) : ℤ)
      else -rgbLen flags (widthOf data)) = endOf flags data ∧
    (if keepsOrder (contextOf mem flags data) then (rgbLen flags (widthOf data) : ℤ)
      else -rgbLen flags (widthOf data)) = incOf flags data := by
  have hpos := h.linesOf_pos
  unfold endOf incOf startOf rowOf
  simp only [keepsOrder_iff]
  split_ifs
  · exact ⟨by simp, by push_cast; ring, trivial⟩
  · refine ⟨by simp, ?_, trivial⟩
    rw [Nat.sub_zero]
    push_cast [Nat.cast_sub (show 1 ≤ linesOf data by omega)]
    ring

theorem decode_eq (h : Headed flags data) (hadmits : Admits p mem flags data) {decoder : ℤ → LineState → LineState}
    (hdecoder : decoderOf (infoOf data).bits = some decoder) : decode p (contextOf mem flags data) ⟨data, pos⟩ =
      if rgbLen flags (widthOf data) ≤ p.PTRDIFF_MAX ∧ (headerOf data).dataOffset ≤ p.LONG_MAX then
        let s := decodeLines decoder (fileLen data) (incOf flags data) (endOf flags data) (linesOf data)
          (startState mem flags data)
        (s, decide (s.pRgb = endOf flags data))
      else ({ startState mem flags data with fp := ⟨data, pos⟩ }, false) := by
  obtain ⟨hfirst, hend, hinc⟩ := pointers_eq h mem
  have hwidth : (infoOf data).width = (infoOf data).width.toNat := by
    have hpos := h.width
    omega
  have hle : rgbLen flags (widthOf data) ≤ p.SIZE_MAX :=
    (Nat.le_mul_of_pos_left _ h.linesOf_pos).trans hadmits.rgbSize
  have hptrdiff : ¬ (p.SIZE_MAX > p.PTRDIFF_MAX ∧ rgbLen flags (widthOf data) > p.PTRDIFF_MAX) ↔
      rgbLen flags (widthOf data) ≤ p.PTRDIFF_MAX := by omega
  have hlong := p.canMakeLong_iff (dataOffset_le data)
  unfold decode
  simp only [contextOf_header, contextOf_info, contextOf_lines, contextOf_fileLineLen, contextOf_rgbLineLen, hdecoder,
    hfirst, hend, hinc]
  by_cases hroom : rgbLen flags (widthOf data) ≤ p.PTRDIFF_MAX
  · rw [if_neg (hptrdiff.2 hroom)]
    by_cases hoffset : (headerOf data).dataOffset ≤ p.LONG_MAX
    · rw [hlong.2 hoffset, if_neg (by simp), if_pos ⟨hroom, hoffset⟩, hwidth]
      rfl
    · rw [Bool.eq_false_iff.2 fun hcan => hoffset (hlong.1 hcan), if_pos Bool.not_false,
        if_neg fun hboth => hoffset hboth.2,
        hwidth]
      rfl
  · rw [if_pos (by omega), if_neg fun hboth => hroom hboth.1, hwidth]
    rfl

/-- `Decode` leaves some of the lines done; all of them where it succeeds. -/
theorem decode_cases (h : Headed flags data) (hadmits : Admits p mem flags data) (pos : ℕ) :
    ∃ k s fp, LinesDone mem flags data (startOf flags data 0) (incOf flags data) k s ∧
      (decode p (contextOf mem flags data) ⟨data, pos⟩).1 = { s with fp := fp } ∧
      ((decode p (contextOf mem flags data) ⟨data, pos⟩).2 = true ↔
        rgbLen flags (widthOf data) ≤ p.PTRDIFF_MAX ∧ (headerOf data).dataOffset ≤ p.LONG_MAX ∧
          (headerOf data).dataOffset + linesOf data * fileLen data ≤ data.length) ∧
      ((decode p (contextOf mem flags data) ⟨data, pos⟩).2 = true → k = linesOf data) := by
  have hlines := h.linesOf_pos
  obtain ⟨decoder, hdecoder⟩ := h.decoder
  have hstart : LinesDone mem flags data (startOf flags data 0) (incOf flags data) 0 (startState mem flags data) :=
    linesDone_zero mem _ _
  rw [decode_eq h hadmits hdecoder]
  split_ifs with hroom
  · obtain ⟨k, hrun, hk⟩ := hstart.run h.bits h.fileLen_pos hdecoder startOf_eq h.incOf_ne_zero (Nat.zero_add _)
    change LinesDone _ _ _ _ _ k (decodeLines decoder (fileLen data) (incOf flags data) (endOf flags data)
      (linesOf data) (startState mem flags data)) at hrun
    set s := decodeLines decoder (fileLen data) (incOf flags data) (endOf flags data) (linesOf data)
      (startState mem flags data)
    have hdone : s.pRgb = endOf flags data ↔ k = linesOf data := by
      rw [hrun.pRgb, endOf, add_right_inj]
      exact ⟨fun heq => by exact_mod_cast mul_right_cancel₀ h.incOf_ne_zero heq, fun heq => by rw [heq]⟩
    have hall : k = linesOf data ↔ (headerOf data).dataOffset + linesOf data * fileLen data ≤ data.length := by
      have hlength := hrun.length
      constructor
      · rintro rfl
        omega
      · intro hle
        omega
    refine ⟨k, s, s.fp, hrun, rfl, ?_, fun hsome => hdone.1 (of_decide_eq_true hsome)⟩
    rw [decide_eq_true_eq, hdone, hall]
    exact ⟨fun hle => ⟨hroom.1, hroom.2, hle⟩, fun hle => hle.2.2⟩
  · refine ⟨0, startState mem flags data, ⟨data, pos⟩, hstart, rfl, ?_, fun hsome => (nomatch hsome)⟩
    exact ⟨fun hsome => (nomatch hsome), fun hle => absurd ⟨hle.1, hle.2.1⟩ hroom⟩

/-! ### `bmpread` -/

theorem guard_bind_eq_some_iff {α : Type} {c : Prop} [Decidable c] {k : Unit → Option α} {a : α} :
    ((guard c : Option Unit) >>= k) = some a ↔ c ∧ k () = some a := by
  rw [Option.bind_eq_bind, Option.bind_eq_some_iff]
  exact ⟨fun ⟨_, hguard, hk⟩ => ⟨(Option.guard_eq_some' _).1 hguard, hk⟩,
    fun h => ⟨(), (Option.guard_eq_some' _).2 h.1, h.2⟩⟩

theorem bmpread_eq_some_iff {bmp : BmpreadT} : bmpread p mem (some data) flags = some bmp ↔
    (WellFormed flags data ∧ Supports p mem flags data) ∧
      bmp = ⟨widthOf data, linesOf data,
        (decode p (contextOf mem flags data) ⟨data, paletteEnd data⟩).1.rgbData⟩ := by
  have hvalidate : ∀ r, validate p mem flags ⟨data, 0⟩ = some r ↔ (Headed flags data ∧ Admits p mem flags data) ∧
      r = (contextOf mem flags data, ⟨data, paletteEnd data⟩) := fun r => by
    rw [validate_eq_some_iff, and_assoc]
  have hint : Headed flags data → (¬ (INT32_MAX > p.INT_MAX ∧
      ((infoOf data).width > p.INT_MAX ∨ linesOf data > p.INT_MAX)) ↔
        widthOf data ≤ p.INT_MAX ∧ linesOf data ≤ p.INT_MAX) := by
    intro h
    have hwidth := widthOf_lt data
    have hheight := height_bounds data
    have hne := h.height.2
    have hpos := h.width
    unfold widthOf linesOf INT32_MAX
    omega
  have hrest : Headed flags data ∧ Admits p mem flags data →
      ((decode p (contextOf mem flags data) ⟨data, paletteEnd data⟩).2 = true ∧
        ¬ (INT32_MAX > p.INT_MAX ∧ ((infoOf data).width > p.INT_MAX ∨ linesOf data > p.INT_MAX)) ↔
        WellFormed flags data ∧ Supports p mem flags data) := by
    rintro ⟨h, hadmits⟩
    obtain ⟨_, _, _, _, _, hdone, _⟩ := decode_cases h hadmits (paletteEnd data)
    rw [hdone, hint h]
    exact ⟨fun ⟨⟨hinc, hoffset, hlines⟩, hwidth, hheight⟩ =>
      ⟨⟨h, hlines⟩, ⟨hadmits, hinc, hoffset, hwidth, hheight⟩⟩,
      fun ⟨hformed, hsupports⟩ =>
        ⟨⟨hsupports.inc, hsupports.offset, hformed.lines⟩, hsupports.width, hsupports.lines⟩⟩
  have hafter : ∀ r, r = (contextOf mem flags data, (⟨data, paletteEnd data⟩ : BinaryFile)) →
      ((do
        guard ((decode p r.1 r.2).2 = true)
        guard ¬ (INT32_MAX > p.INT_MAX ∧ (r.1.info.width > p.INT_MAX ∨ r.1.lines > p.INT_MAX))
        return (⟨r.1.info.width.toNat, r.1.lines, (decode p r.1 r.2).1.rgbData⟩ : BmpreadT)) = some bmp ↔
      ((decode p (contextOf mem flags data) ⟨data, paletteEnd data⟩).2 = true ∧
        ¬ (INT32_MAX > p.INT_MAX ∧ ((infoOf data).width > p.INT_MAX ∨ linesOf data > p.INT_MAX))) ∧
      bmp = ⟨widthOf data, linesOf data,
        (decode p (contextOf mem flags data) ⟨data, paletteEnd data⟩).1.rgbData⟩) := by
    rintro _ rfl
    rw [guard_bind_eq_some_iff, guard_bind_eq_some_iff, ← and_assoc]
    exact and_congr_right fun _ => ⟨fun h => (Option.some.inj h).symm, fun h => congrArg some h.symm⟩
  unfold bmpread
  rw [Option.bind_eq_bind, Option.bind_some, Option.bind_eq_bind, Option.bind_eq_some_iff]
  constructor
  · rintro ⟨r, hr, hbmp⟩
    obtain ⟨hboth, heq⟩ := (hvalidate r).1 hr
    obtain ⟨hdone, hvalue⟩ := (hafter r heq).1 hbmp
    exact ⟨(hrest hboth).1 hdone, hvalue⟩
  · rintro ⟨hall, hvalue⟩
    have hboth : Headed flags data ∧ Admits p mem flags data := ⟨hall.1.toHeaded, hall.2.toAdmits⟩
    exact ⟨_, (hvalidate _).2 ⟨hboth, rfl⟩, (hafter _ rfl).2 ⟨(hrest hboth).2 hall, hvalue⟩⟩

/-- Every bitmap is loaded that the platform has room for, and nothing else. -/
theorem bmpread_isSome_iff (p : Platform) (mem : Memory) (flags : UInt32) (data : List UInt8) :
    (bmpread p mem (some data) flags).isSome = true ↔ WellFormed flags data ∧ Supports p mem flags data := by
  rw [Option.isSome_iff_exists]
  exact ⟨fun ⟨_, h⟩ => (bmpread_eq_some_iff.1 h).1, fun h => ⟨_, bmpread_eq_some_iff.2 ⟨h, rfl⟩⟩⟩

theorem colorAt_rowOf {y : ℕ} (hy : y < linesOf data) (x : ℕ) : colorAt data (rowOf flags data y) x =
    pictureOf data (if flags &&& BMPREAD_TOP_DOWN ≠ 0 then y else linesOf data - 1 - y) x := by
  unfold rowOf pictureOf
  by_cases hheight : (infoOf data).height < 0
  · by_cases hdown : flags &&& BMPREAD_TOP_DOWN ≠ 0
    · rw [if_pos ⟨fun _ => hdown, fun _ => hheight⟩, if_pos hheight, if_pos hdown]
    · rw [if_neg fun hiff => hdown (hiff.1 hheight), if_pos hheight, if_neg hdown]
  · rw [if_neg hheight]
    by_cases hdown : flags &&& BMPREAD_TOP_DOWN ≠ 0
    · rw [if_neg fun hiff => hheight (hiff.2 hdown), if_pos hdown]
    · rw [if_pos ⟨fun h => absurd h hheight, fun h => absurd h hdown⟩, if_neg hdown]
      congr 1
      omega

/-- The lines of the picture are there, from the top if that is what the flags say; nothing but its pixels was written,
and nothing was read back. -/
structure Shows (flags : UInt32) (data : List UInt8) (bmp : BmpreadT) : Prop where
  width : bmp.width = widthOf data
  height : bmp.height = linesOf data
  size : bmp.rgbData.size = bmp.height * rgbLen flags bmp.width
  unread : bmp.rgbData.cells.reads = []
  get : ∀ y < bmp.height, ∀ x < bmp.width, ∀ c < 3,
    bmp.rgbData.get (y * rgbLen flags bmp.width + (3 * x + c) : ℕ) =
      (pictureOf data (if flags &&& BMPREAD_TOP_DOWN ≠ 0 then y else bmp.height - 1 - y) x).component c
  written : ∀ i : ℤ, bmp.rgbData.cells.Written i ↔ ∃ y < bmp.height,
    ((y * rgbLen flags bmp.width : ℕ) : ℤ) ≤ i ∧ i < (y * rgbLen flags bmp.width : ℕ) + 3 * bmp.width

theorem decode_shows (hformed : WellFormed flags data) (hsupports : Supports p mem flags data) :
    Shows flags data ⟨widthOf data, linesOf data,
      (decode p (contextOf mem flags data) ⟨data, paletteEnd data⟩).1.rgbData⟩ := by
  obtain ⟨k, s, fp, hdone, hstate, hsuccess, hk⟩ :=
    decode_cases hformed.toHeaded hsupports.toAdmits (paletteEnd data)
  obtain rfl := hk (hsuccess.2 ⟨hsupports.inc, hsupports.offset, hformed.lines⟩)
  rw [hstate]
  have hstart : ∀ {y}, y < linesOf data →
      startOf flags data (rowOf flags data y) = y * rgbLen flags (widthOf data) := by
    intro y hy
    rw [startOf, rowOf_rowOf hy]
  refine ⟨rfl, rfl, hdone.rgbSize, hdone.unread, fun y hy x hx c hc => ?_, fun i => ?_⟩
  · change y < linesOf data at hy
    change x < widthOf data at hx
    have hget := hdone.get (rowOf flags data y) (rowOf_lt hy) (3 * x + c) (by omega)
    rw [hstart hy, show (3 * x + c) / 3 = x by omega, show (3 * x + c) % 3 = c by omega, colorAt_rowOf hy] at hget
    exact hget
  · refine (hdone.written i).trans ⟨fun ⟨j, hj, hle, hlt⟩ => ?_, fun ⟨y, hy, hle, hlt⟩ => ?_⟩
    · exact ⟨rowOf flags data j, rowOf_lt hj, hle, hlt⟩
    · exact ⟨rowOf flags data y, rowOf_lt hy, by rw [hstart hy]; exact hle, by rw [hstart hy]; exact hlt⟩

theorem bmpread_shows {bmp : BmpreadT} (h : bmpread p mem (some data) flags = some bmp) : Shows flags data bmp := by
  obtain ⟨⟨hformed, hsupports⟩, rfl⟩ := bmpread_eq_some_iff.1 h
  exact decode_shows hformed hsupports

/-- Two lines of two pixels, no two of one colour. -/
def fourColors (y x : ℕ) : Color := ⟨UInt8.ofNat (100 * y + 10), UInt8.ofNat (100 * x + 20), 30⟩

def fourPixels : List UInt8 := encode 2 2 fourColors

/-- Memory for everything, with something in it. -/
def staleMemory : Memory := ⟨fun _ => true, fun _ => ⟨1, 2, 3, 4⟩, fun _ => 0xab, fun _ => 0xcd⟩

theorem wellFormed_fourPixels : WellFormed BMPREAD_ANY_SIZE fourPixels :=
  wellFormed_encode ⟨by omega, by omega⟩ ⟨by omega, by omega⟩ (by decide)

theorem supports_fourPixels : Supports lp64 staleMemory BMPREAD_ANY_SIZE fourPixels :=
  wellFormed_fourPixels.toHeaded.supports fun _ => rfl

/-- The first line of the output is the lower one of the picture, and the two bytes behind it are left alone. -/
theorem bmpread_shows_fourPixels : ∃ bmp, bmpread lp64 staleMemory (some fourPixels) BMPREAD_ANY_SIZE = some bmp ∧
    bmp.rgbData.get 0 = 110 ∧ bmp.rgbData.get 4 = 120 ∧ bmp.rgbData.get 8 = 10 ∧ ¬ bmp.rgbData.cells.Written 6 := by
  have hsize : 0 < 2 ∧ 2 < 2 ^ 31 := by omega
  obtain ⟨bmp, hbmp⟩ : ∃ bmp, bmpread lp64 staleMemory (some fourPixels) BMPREAD_ANY_SIZE = some bmp :=
    ⟨_, bmpread_eq_some_iff.2 ⟨⟨wellFormed_fourPixels, supports_fourPixels⟩, rfl⟩⟩
  have hshows := bmpread_shows hbmp
  obtain ⟨hwidthOf, hlinesOf, -⟩ := sizes_encode hsize hsize fourColors
  have hwidth : bmp.width = 2 := hshows.width.trans hwidthOf
  have hheight : bmp.height = 2 := hshows.height.trans hlinesOf
  have hget : ∀ y < 2, ∀ x < 2, ∀ c < 3, bmp.rgbData.get (y * 8 + (3 * x + c) : ℕ) =
      (fourColors (1 - y) x).component c := by
    intro y hy x hx c hc
    have hcell := hshows.get y (by omega) x (by omega) c hc
    rwa [hwidth, hheight, if_neg (by decide), fourPixels, pictureOf_encode hsize hsize (by omega) hx] at hcell
  refine ⟨bmp, hbmp, hget 0 (by decide) 0 (by decide) 0 (by decide), hget 0 (by decide) 1 (by decide) 1 (by decide),
    hget 1 (by decide) 0 (by decide) 0 (by decide), fun hwritten => ?_⟩
  obtain ⟨y, -, hle, hlt⟩ := (hshows.written 6).1 hwritten
  rw [hwidth, show rgbLen BMPREAD_ANY_SIZE 2 = 8 from rfl] at hle hlt
  omega

/-- What is written as an image is read as this image. -/
theorem bmpread_encode {width lines : ℕ} {image : ℕ → ℕ → Color} (hwidth : 0 < width ∧ width < 2 ^ 31)
    (hlines : 0 < lines ∧ lines < 2 ^ 31) (hflags : flags &&& BMPREAD_ANY_SIZE ≠ 0)
    (hsupports : Supports p mem flags (encode width lines image)) :
    ∃ bmp, bmpread p mem (some (encode width lines image)) flags = some bmp ∧ bmp.width = width ∧
      bmp.height = lines ∧ ∀ y < lines, ∀ x < width, ∀ c < 3,
        bmp.rgbData.get (y * rgbLen flags width + (3 * x + c) : ℕ) =
          (image (if flags &&& BMPREAD_TOP_DOWN ≠ 0 then y else lines - 1 - y) x).component c := by
  have hformed : WellFormed flags (encode width lines image) := wellFormed_encode hwidth hlines hflags
  obtain ⟨bmp, hbmp, hshows⟩ : ∃ bmp, bmpread p mem (some (encode width lines image)) flags = some bmp ∧
      Shows flags (encode width lines image) bmp :=
    ⟨_, bmpread_eq_some_iff.2 ⟨⟨hformed, hsupports⟩, rfl⟩, decode_shows hformed hsupports⟩
  obtain ⟨hwidthOf, hlinesOf, -⟩ := sizes_encode hwidth hlines image
  have hbmpWidth := hshows.width.trans hwidthOf
  have hbmpHeight := hshows.height.trans hlinesOf
  refine ⟨bmp, hbmp, hbmpWidth, hbmpHeight, fun y hy x hx c hc => ?_⟩
  have hget := hshows.get y (by omega) x (by omega) c hc
  rw [hbmpWidth, hbmpHeight, pictureOf_encode hwidth hlines (by split_ifs <;> omega) hx] at hget
  exact hget

theorem bmpread_encode_fourPixels : ∃ bmp, bmpread lp64 staleMemory (some fourPixels) BMPREAD_ANY_SIZE = some bmp ∧
    bmp.width = 2 ∧ bmp.height = 2 ∧ ∀ y < 2, ∀ x < 2, ∀ c < 3,
      bmp.rgbData.get (y * 8 + (3 * x + c) : ℕ) = (fourColors (1 - y) x).component c :=
  bmpread_encode ⟨by omega, by omega⟩ ⟨by omega, by omega⟩ (by decide) supports_fourPixels

/-- Whatever is in the file, no access is outside of a block. -/
theorem decode_safe {ctx : ReadContext} {fp : BinaryFile} (h : validate p mem flags ⟨data, 0⟩ = some (ctx, fp)) :
    (decode p ctx fp).1.palette.Safe ∧ (decode p ctx fp).1.fileData.Safe ∧ (decode p ctx fp).1.rgbData.Safe := by
  rw [validate_eq_some_iff, Prod.mk.injEq] at h
  obtain ⟨hheaded, hadmits, rfl, rfl⟩ := h
  obtain ⟨k, s, fp, hdone, hstate, -⟩ := decode_cases hheaded hadmits (paletteEnd data)
  rw [hstate]
  exact ⟨hdone.palette, hdone.file, hdone.rgb⟩

theorem decode_safe_fourPixels :
    let s := (decode lp64 (contextOf staleMemory BMPREAD_ANY_SIZE fourPixels) ⟨fourPixels, paletteEnd fourPixels⟩).1
    s.palette.Safe ∧ s.fileData.Safe ∧ s.rgbData.Safe :=
  decode_safe (validate_eq_some_iff.2 ⟨wellFormed_fourPixels.toHeaded, supports_fourPixels.toAdmits, rfl⟩)

end

end

end CWorkspace.Bmp
