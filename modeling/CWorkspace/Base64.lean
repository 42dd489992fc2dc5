import Mathlib.Logic.Function.Basic
import CWorkspace.Lib.Block

/-!
# Base 64

`base64.c` of fastcommon. A context has the two tables, the character for padding and how lines are separated.
`dest` is a block of memory; `pDest` is an offset in it, so that a store in front of it is one at a negative
offset.
-/

namespace CWorkspace

namespace Base64

abbrev char := UInt8

/-- `lineSeparator`: the `line_sep_len` first bytes of `line_separator`. -/
structure Context where
  lineSeparator : List char
  lineLength : ℤ
  valueToChar : ℕ → char
  charToValue : char → ℤ
  padCh : char

def INT_MAX : ℤ := 2147483647

/-- The value of an `int` expression; `none` where it overflows. -/
def checked (n : ℤ) : Option ℤ := if -INT_MAX - 1 ≤ n ∧ n ≤ INT_MAX then some n else none

def BASE64_IGNORE : ℤ := -1

def BASE64_PAD : ℤ := -2

/-- The division of C. -/
def setLineLength (ctx : Context) (length : ℤ) : Context := { ctx with lineLength := length.tdiv 4 * 4 }

/-- `snprintf` into 16 bytes, the last of them for the terminating zero. -/
def setLineSeparator (ctx : Context) (pLineSeparator : List char) : Context :=
  { ctx with lineSeparator := pLineSeparator.take 15 }

def valueTable (chPlus chSplash : char) (i : ℕ) : char :=
  if i < 26 then UInt8.ofNat (65 + i)
  else if i < 52 then UInt8.ofNat (97 + (i - 26))
  else if i < 62 then UInt8.ofNat (48 + (i - 52))
  else if i = 62 then chPlus
  else chSplash

/-- `context->charToValue[context->valueToChar[i]] = i` for all `i` up to `n`. -/
def charTable (valueToChar : ℕ → char) : ℕ → char → ℤ
  | 0 => fun _ => BASE64_IGNORE
  | n + 1 => Function.update (charTable valueToChar n) (valueToChar n) n

def initEx (nLineLength : ℤ) (chPlus chSplash chPad : char) : Context where
  lineSeparator := [10]
  lineLength := nLineLength
  valueToChar := valueTable chPlus chSplash
  charToValue := Function.update (charTable (valueTable chPlus chSplash) 64) chPad BASE64_PAD
  padCh := chPad

def init (nLineLength : ℤ) : Context := initEx nLineLength 43 47 61

/-! ### Encoding -/

def getEncodeLength (ctx : Context) (nSrcLen : ℕ) : Option ℤ := do
  let sum ← checked (nSrcLen + 2)
  let outputLength ← checked (sum.tdiv 3 * 4)
  if ctx.lineLength ≠ 0 then
    let sum ← checked (outputLength + ctx.lineLength)
    let sum ← checked (sum - 1)
    let lines ← checked (sum.tdiv ctx.lineLength)
    let lines ← checked (lines - 1)
    if 0 < lines then
      let breaks ← checked (lines * ctx.lineSeparator.length)
      checked (outputLength + breaks)
    else some outputLength
  else some outputLength

structure Encoding where
  dest : Block char
  pDest : ℤ
  linePos : ℤ

def Encoding.put (s : Encoding) (l : List char) : Encoding :=
  { s with dest := s.dest.storeAll s.pDest l, pDest := s.pDest + l.length }

/-- The four characters of three bytes. -/
def quad (ctx : Context) (a b c : char) : List char :=
  let combined := (a.toNat <<< 16) ||| (b.toNat <<< 8) ||| c.toNat
  let c3 := combined &&& 0x3f
  let combined := combined >>> 6
  let c2 := combined &&& 0x3f
  let combined := combined >>> 6
  let c1 := combined &&& 0x3f
  let combined := combined >>> 6
  let c0 := combined &&& 0x3f
  [ctx.valueToChar c0, ctx.valueToChar c1, ctx.valueToChar c2, ctx.valueToChar c3]

/-- A new line if the next four characters are too many for this one. -/
def startLine (ctx : Context) (s : Encoding) : Encoding :=
  if ctx.lineLength < s.linePos + 4 then
    { (if ctx.lineLength ≠ 0 then s.put ctx.lineSeparator else s) with linePos := 4 }
  else { s with linePos := s.linePos + 4 }

/-- `for (…; pRaw<pEnd; pRaw+=3)` -/
def encodeGroups (ctx : Context) : List char → Encoding → Encoding
  | a :: b :: c :: pRaw, s => encodeGroups ctx pRaw ((startLine ctx s).put (quad ctx a b c))
  | _, s => s

/-- `szPad`, if it is needed. -/
def lastGroup (src : List char) : List char :=
  let nSrcLen := src.length
  let leftover := nSrcLen - nSrcLen / 3 * 3
  if leftover = 1 then [src.getD (nSrcLen - 1) 0, 0, 0]
  else if leftover = 2 then [src.getD (nSrcLen - 2) 0, src.getD (nSrcLen - 1) 0, 0]
  else []

/-- What is done for the leftover bytes: `dest` and `*dest_len`. -/
def finish (ctx : Context) (bPad : Bool) (leftover : ℕ) (dest : Block char) (pDest : ℤ) : Block char × ℤ :=
  if leftover = 1 then
    if bPad then ((dest.store (pDest - 1) ctx.padCh).store (pDest - 2) ctx.padCh, pDest)
    else (dest.store (pDest - 2) 0, pDest - 2)
  else if leftover = 2 then
    if bPad then (dest.store (pDest - 1) ctx.padCh, pDest) else (dest.store (pDest - 1) 0, pDest - 1)
  else (dest, pDest)

/-- `base64_encode_ex`: `dest` and `*dest_len`. -/
def encodeEx (ctx : Context) (src : List char) (dest : Block char) (bPad : Bool) : Block char × ℤ :=
  let nSrcLen := src.length
  if nSrcLen ≤ 0 then (dest.store 0 0, 0)
  else
    let s := encodeGroups ctx (src.take (nSrcLen / 3 * 3)) ⟨dest, 0, 0⟩
    let s := encodeGroups ctx (lastGroup src) s
    finish ctx bPad (nSrcLen - nSrcLen / 3 * 3) (s.dest.store s.pDest 0) s.pDest

/-! ### Decoding -/

structure Decoding where
  dest : Block char
  pDest : ℤ
  cycle : ℕ
  combined : ℕ
  dummies : ℤ

def decodeValue (s : Decoding) (value : ℕ) : Decoding :=
  if s.cycle = 0 then { s with combined := value, cycle := 1 }
  else if s.cycle = 1 then { s with combined := s.combined <<< 6 ||| value, cycle := 2 }
  else if s.cycle = 2 then { s with combined := s.combined <<< 6 ||| value, cycle := 3 }
  else
    let combined := s.combined <<< 6 ||| value
    { s with
      dest := s.dest.storeAll s.pDest [UInt8.ofNat (combined >>> 16), UInt8.ofNat ((combined &&& 0x0000FF00) >>> 8),
        UInt8.ofNat (combined &&& 0x000000FF)]
      pDest := s.pDest + 3
      combined := combined
      cycle := 0 }

def decodeChar (ctx : Context) (s : Decoding) (c : char) : Decoding :=
  let value := ctx.charToValue c
  if value = BASE64_IGNORE then s
  else if value = BASE64_PAD then decodeValue { s with dummies := s.dummies + 1 } 0
  else decodeValue s value.toNat

/-- `base64_decode`: `dest` and `*dest_len`. -/
def decode (ctx : Context) (src : List char) (dest : Block char) : Block char × ℤ :=
  let s := src.foldl (decodeChar ctx) ⟨dest, 0, 0, 0, 0⟩
  if s.cycle ≠ 0 then (s.dest.store 0 0, 0)
  else (s.dest.store (s.pDest - s.dummies) 0, s.pDest - s.dummies)

/-- `base64_decode_auto`; `granted`: whether `malloc` finds the memory, if `tmpBuff` is too small. -/
def decodeAuto (ctx : Context) (src : List char) (dest : Block char) (granted : Bool) :
    Option (Block char × ℤ) := do
  let nRemain := src.length % 4
  if nRemain = 0 then some (decode ctx src dest)
  else
    let nPadLen := 4 - nRemain
    let nNewLen ← checked (src.length + nPadLen)
    if 256 < nNewLen ∧ granted = false then some (dest.store 0 0, 0)
    else some (decode ctx (src ++ List.replicate nPadLen ctx.padCh) dest)

end Base64

end CWorkspace
