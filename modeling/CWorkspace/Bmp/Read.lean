import CWorkspace.Lib.Block
import CWorkspace.Lib.BinaryFile

/-!
# The bitmap loader (`c/libs/bmpread/bmpread.c`)

The file is a `BinaryFile`, and each of the three blocks that are allocated a `Block`, so that its size and the accesses
made are known. The sizes are computed in the `size_t` of a `Platform`, where they may wrap. A pointer is the
index of the cell it points to; `p_rgb_end` may point before the block.
-/

namespace CWorkspace.Bmp
open BinaryFile

/-- What `limits.h` says: `size_t` has `sizeBits` bits. Any C has the two bounds. -/
structure Platform where
  sizeBits : ℕ
  LONG_MAX : ℕ
  PTRDIFF_MAX : ℕ
  INT_MAX : ℕ
  size_ge : 16 ≤ sizeBits
  long_ge : 2 ^ 31 - 1 ≤ LONG_MAX

def UINT32_MAX : ℕ := 2 ^ 32 - 1
def INT32_MAX : ℕ := 2 ^ 31 - 1

namespace Platform
variable (p : Platform)

def SIZE_MAX : ℕ := 2 ^ p.sizeBits - 1

def size (n : ℕ) : ℕ := n % 2 ^ p.sizeBits

def canAdd (a b : ℕ) : Bool := a ≤ p.SIZE_MAX - b

def canMultiply (a b : ℕ) : Bool := a ≤ p.SIZE_MAX / b

def canMakeSizeT (x : ℕ) : Bool := !(UINT32_MAX > p.SIZE_MAX && x > p.SIZE_MAX)

def canMakeLong (x : ℕ) : Bool := !(UINT32_MAX > p.LONG_MAX && x > p.LONG_MAX)

def getLineLength (width bpp : ℕ) : ℕ :=
  let bits := p.size (width * bpp)
  let padBits := (32 - (bits &&& 0x1f)) &&& 0x1f
  if !p.canMultiply width bpp || !p.canAdd bits padBits then 0
  else p.size (bits + padBits) / 8

end Platform

def canNegate (x : ℤ) : Bool := x ≠ -2 ^ 31

/-- `for (bit = 1; bit; bit <<= 1)`, with `bit` a `uint32_t`. -/
def isPowerOf2From (x : UInt32) : ℕ → UInt32 → Bool
  | 0, _ => false
  | fuel + 1, bit =>
    if bit = 0 then false
    else if x &&& bit ≠ 0 then x &&& ~~~bit = 0
    else isPowerOf2From x fuel (bit <<< 1)

def isPowerOf2 (x : ℕ) : Bool := isPowerOf2From (UInt32.ofNat x) 33 1

/-! ### The headers -/

def readLittleBytes : ℕ → ℕ → ℕ → Reader ℕ
  | 0, _, dest => return dest
  | bytes + 1, shift, dest => do
    let byte ← fgetc
    readLittleBytes bytes (shift + 8) ((dest + byte.toNat <<< shift) % 2 ^ 32)

def readLittleUint32 : Reader ℕ := readLittleBytes 4 0 0

/-- The bits of a `uint32_t` read as an `int32_t`. -/
def toInt32 (t : ℕ) : ℤ := if t < 2 ^ 31 then t else (t : ℤ) - 2 ^ 32

def readLittleInt32 : Reader ℤ := do
  let t ← readLittleBytes 4 0 0
  return toInt32 t

def readLittleUint16 : Reader ℕ := do
  let t ← readLittleBytes 2 0 0
  return t % 2 ^ 16

structure BmpHeader where
  magic0 : UInt8
  magic1 : UInt8
  fileSize : ℕ
  unused : ℕ
  dataOffset : ℕ

def readHeader : Reader BmpHeader := do
  let magic0 ← fgetc
  let magic1 ← fgetc
  let fileSize ← readLittleUint32
  let unused ← readLittleUint32
  let dataOffset ← readLittleUint32
  return { magic0, magic1, fileSize, unused, dataOffset }

def BMP_HEADER_SIZE : ℕ := 14

structure BmpInfo where
  infoSize : ℕ
  width : ℤ
  height : ℤ
  planes : ℕ
  bits : ℕ
  compression : ℕ

def readInfo : Reader BmpInfo := do
  let infoSize ← readLittleUint32
  let width ← readLittleInt32
  let height ← readLittleInt32
  let planes ← readLittleUint16
  let bits ← readLittleUint16
  let compression ← readLittleUint32
  return { infoSize, width, height, planes, bits, compression }

structure BmpPaletteEntry where
  blue : UInt8
  green : UInt8
  red : UInt8
  unused : UInt8

def BMP_PALETTE_ENTRY_SIZE : ℕ := 4

/-- The loop with `colors` rounds still to go. -/
def readPaletteFrom (i : ℕ) : ℕ → Block BmpPaletteEntry → Reader (Block BmpPaletteEntry)
  | 0, palette => return palette
  | colors + 1, palette => do
    let components ← fread 4
    let entry := ⟨components.getD 0 0, components.getD 1 0, components.getD 2 0, components.getD 3 0⟩
    readPaletteFrom (i + 1) colors (palette.store i entry)

def readPalette (palette : Block BmpPaletteEntry) (colors : ℕ) : Reader (Block BmpPaletteEntry) :=
  readPaletteFrom 0 colors palette

/-! ### `Validate` -/

def BMPREAD_TOP_DOWN : UInt32 := 1
def BMPREAD_BYTE_ALIGN : UInt32 := 2
def BMPREAD_ANY_SIZE : UInt32 := 4

/-- What `malloc` does: whether there is a block of so many bytes, and what is in the three that are asked for. -/
structure Memory where
  gives : ℕ → Bool
  palette : ℤ → BmpPaletteEntry
  fileData : ℤ → UInt8
  rgbData : ℤ → UInt8

/-- `lines` is not negative, and the blocks are those of `palette`, `file_data` and `rgb_data`. -/
structure ReadContext where
  flags : UInt32
  header : BmpHeader
  info : BmpInfo
  lines : ℕ
  fileLineLen : ℕ
  rgbLineLen : ℕ
  palette : Block BmpPaletteEntry
  fileData : Block UInt8
  rgbData : Block UInt8

/-- Without a palette the pointer is null: a block of no cells. -/
def validatePalette (p : Platform) (mem : Memory) (info : BmpInfo) : Reader (Block BmpPaletteEntry) := do
  if info.bits ≤ 8 then
    let colors := 1 <<< info.bits
    guard (mem.gives (colors * BMP_PALETTE_ENTRY_SIZE))
    guard (p.canMakeLong info.infoSize)
    guard ¬ (UINT32_MAX > p.LONG_MAX ∧ info.infoSize > p.LONG_MAX - BMP_HEADER_SIZE)
    fseek (BMP_HEADER_SIZE + info.infoSize)
    readPalette (Block.malloc colors mem.palette) colors
  else return Block.malloc 0 mem.palette

def validate (p : Platform) (mem : Memory) (flags : UInt32) : Reader ReadContext := do
  let header ← readHeader
  let info ← readInfo
  guard (header.magic0 = 0x42)
  guard (header.magic1 = 0x4d)
  guard ¬ (info.width ≤ 0 ∨ info.height = 0)
  let width := info.width.toNat
  guard ¬ info.compression > 0
  guard ¬ (info.bits ≠ 1 ∧ info.bits ≠ 4 ∧ info.bits ≠ 8 ∧ info.bits ≠ 24)
  guard (p.canMakeSizeT width)
  let fileLineLen := p.getLineLength width info.bits
  guard (fileLineLen ≠ 0)
  guard (p.canMultiply width 3)
  let rgbLineLen :=
    if flags &&& BMPREAD_BYTE_ALIGN ≠ 0 then p.size (width * 3) else p.getLineLength width 24
  guard (flags &&& BMPREAD_BYTE_ALIGN ≠ 0 ∨ rgbLineLen ≠ 0)
  guard (canNegate info.height)
  let lines := (if info.height < 0 then -info.height else info.height).toNat
  guard (flags &&& BMPREAD_ANY_SIZE ≠ 0 ∨ isPowerOf2 width ∧ isPowerOf2 lines)
  let palette ← validatePalette p mem info
  guard (mem.gives fileLineLen)
  guard (p.canMakeSizeT lines)
  guard (p.canMultiply lines rgbLineLen)
  let rgbSize := p.size (lines * rgbLineLen)
  guard (mem.gives rgbSize)
  return {
    flags, header, info, lines, fileLineLen, rgbLineLen, palette
    fileData := Block.malloc fileLineLen mem.fileData
    rgbData := Block.malloc rgbSize mem.rgbData }

/-- What a decoder works on. -/
structure LineState where
  pRgb : ℤ
  pFile : ℤ
  palette : Block BmpPaletteEntry
  fileData : Block UInt8
  rgbData : Block UInt8

namespace LineState

/-- `*p_rgb++ = byte` -/
def put (s : LineState) (byte : UInt8) : LineState :=
  { s with rgbData := s.rgbData.store s.pRgb byte, pRgb := s.pRgb + 1 }

/-- `*p_rgb++ = *(p_file++ + off)` -/
def copy (s : LineState) (off : ℤ) : LineState :=
  let (byte, fileData) := s.fileData.load (s.pFile + off)
  { s with fileData := fileData, pFile := s.pFile + 1 }.put byte

def putColor (s : LineState) (lookup : ℕ) : LineState :=
  let (entry, palette) := s.palette.load lookup
  (({ s with palette := palette }.put entry.red).put entry.green).put entry.blue

/-- `*p_file`, with `p_file` moved on by `step`. -/
def file (s : LineState) (step : ℤ) : UInt8 × LineState :=
  let (byte, fileData) := s.fileData.load s.pFile
  (byte, { s with fileData := fileData, pFile := s.pFile + step })

/-- `while (p_rgb < p_rgb_end)`; every round of `body` moves `p_rgb` on. -/
def whileBelow (pRgbEnd : ℤ) (body : LineState → LineState) (s : LineState) : LineState :=
  whileLoop (fun s => s.pRgb < pRgbEnd) body (pRgbEnd - s.pRgb).toNat s

end LineState

def decode24 (pRgbEnd : ℤ) : LineState → LineState :=
  LineState.whileBelow pRgbEnd fun s => ((s.copy 2).copy 0).copy (-2)

def decode8 (pRgbEnd : ℤ) : LineState → LineState :=
  LineState.whileBelow pRgbEnd fun s =>
    let (lookup, s) := s.file 1
    s.putColor lookup.toNat

def nibbles (pRgbEnd : ℤ) (s : LineState) : LineState :=
  let (byte, s) := s.file 0
  let s := s.putColor ((byte.toNat &&& 0xf0) >>> 4)
  if s.pRgb < pRgbEnd then
    let (byte, s) := s.file 1
    s.putColor (byte.toNat &&& 0x0f)
  else s

def decode4 (pRgbEnd : ℤ) : LineState → LineState := LineState.whileBelow pRgbEnd (nibbles pRgbEnd)

def bitStep (r : ℕ × LineState) : ℕ × LineState :=
  let (byte, s) := r.2.file 0
  (r.1 + 1, s.putColor ((byte.toNat >>> (7 - r.1)) &&& 1))

/-- `for (bit = 0; bit < 8 && p_rgb < p_rgb_end; bit++)`, and `p_file++` after it. -/
def bits (pRgbEnd : ℤ) (s : LineState) : LineState :=
  let s := (whileLoop (fun (r : ℕ × LineState) => r.1 < 8 && r.2.pRgb < pRgbEnd) bitStep 8 (0, s)).2
  { s with pFile := s.pFile + 1 }

def decode1 (pRgbEnd : ℤ) : LineState → LineState := LineState.whileBelow pRgbEnd (bits pRgbEnd)

/-! ### `Decode` -/

structure DecodeState where
  fp : BinaryFile
  pRgb : ℤ
  pLineEnd : ℤ
  palette : Block BmpPaletteEntry
  fileData : Block UInt8
  rgbData : Block UInt8

/-- One round: the line that was read is in `file_data`. -/
def decodeLine (decoder : ℤ → LineState → LineState) (rgbInc : ℤ) (line : List UInt8) (fp : BinaryFile)
    (s : DecodeState) : DecodeState :=
  let r := decoder s.pLineEnd ⟨s.pRgb, 0, s.palette, s.fileData.storeAll 0 line, s.rgbData⟩
  ⟨fp, s.pRgb + rgbInc, s.pLineEnd + rgbInc, r.palette, r.fileData, r.rgbData⟩

/-- `while (p_rgb != p_rgb_end && fread(…) == file_line_len)`, for `fuel` rounds at most. -/
def decodeLines (decoder : ℤ → LineState → LineState) (fileLineLen : ℕ) (rgbInc pRgbEnd : ℤ) :
    ℕ → DecodeState → DecodeState
  | 0, s => s
  | fuel + 1, s =>
    if s.pRgb = pRgbEnd then s
    else
      match fread fileLineLen s.fp with
      | none => s
      | some (line, fp) =>
        decodeLines decoder fileLineLen rgbInc pRgbEnd fuel (decodeLine decoder rgbInc line fp s)

def decoderOf : ℕ → Option (ℤ → LineState → LineState)
  | 24 => some decode24
  | 8 => some decode8
  | 4 => some decode4
  | 1 => some decode1
  | _ => none

/-- The first line and the end of the loop: scan lines are kept in order or reversed. -/
def keepsOrder (ctx : ReadContext) : Bool :=
  decide ¬ ctx.info.height < 0 == decide ¬ ctx.flags &&& BMPREAD_TOP_DOWN ≠ 0

/-- What is left at the end, and whether it is all that was to be done. -/
def decode (p : Platform) (ctx : ReadContext) (fp : BinaryFile) : DecodeState × Bool :=
  let first : ℤ := if keepsOrder ctx then 0 else ((ctx.lines - 1) * ctx.rgbLineLen : ℕ)
  let pRgbEnd : ℤ := if keepsOrder ctx then (ctx.lines * ctx.rgbLineLen : ℕ) else -ctx.rgbLineLen
  let rgbInc : ℤ := if keepsOrder ctx then ctx.rgbLineLen else -ctx.rgbLineLen
  let start : DecodeState :=
    ⟨fp, first, first + ctx.info.width * 3, ctx.palette, ctx.fileData, ctx.rgbData⟩
  if p.SIZE_MAX > p.PTRDIFF_MAX ∧ ctx.rgbLineLen > p.PTRDIFF_MAX then (start, false)
  else
    match decoderOf ctx.info.bits with
    | none => (start, false)
    | some decoder =>
      if !p.canMakeLong ctx.header.dataOffset then (start, false)
      else
        let s := decodeLines decoder ctx.fileLineLen rgbInc pRgbEnd ctx.lines
          { start with fp := { fp with pos := ctx.header.dataOffset } }
        (s, s.pRgb = pRgbEnd)

/-! ### `bmpread` -/

structure BmpreadT where
  width : ℕ
  height : ℕ
  rgbData : Block UInt8

/-- `bmpFile` is what is in the file, if it can be opened; without a result `*p_bmp_out` is all zeros. -/
def bmpread (p : Platform) (mem : Memory) (bmpFile : Option (List UInt8)) (flags : UInt32) : Option BmpreadT := do
  let data ← bmpFile
  let (ctx, fp) ← validate p mem flags ⟨data, 0⟩
  let (s, isDecoded) := decode p ctx fp
  guard isDecoded
  guard ¬ (INT32_MAX > p.INT_MAX ∧ (ctx.info.width > p.INT_MAX ∨ ctx.lines > p.INT_MAX))
  return ⟨ctx.info.width.toNat, ctx.lines, s.rgbData⟩

end CWorkspace.Bmp
