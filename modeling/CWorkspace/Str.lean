import Mathlib.Algebra.GroupWithZero.Nat
import CWorkspace.Lib.Buf
import CWorkspace.Lib.Percent

/-!
# `url_encode` (`cpp/src/utils/common/str.cpp`)

A `char` is a byte; whether it promotes to a negative `int` is a parameter of the model, as it is
implementation-defined. The `stringstream` is the text written so far.
-/

namespace CWorkspace.Str
open Percent

abbrev char := UInt8
abbrev int := BitVec 32

def INT_MAX : ℕ := 2 ^ 31 - 1

def promote (isSigned : Bool) (c : char) : int :=
  if isSigned then c.toBitVec.signExtend 32 else c.toBitVec.setWidth 32

/-- `"0123456789abcdef"`, with its terminating zero. -/
def lookup : List char :=
  [48, 49, 50, 51, 52, 53, 54, 55, 56, 57, 97, 98, 99, 100, 101, 102, 0]

/-- The condition of the first branch: `'-'` is 45, `'_'` 95, `'.'` 46 and `'~'` 126. -/
def isKept (c : int) : Bool :=
  (48#32).sle c && c.sle 57#32 || (65#32).sle c && c.sle 90#32 || (97#32).sle c && c.sle 122#32 ||
    (c == 45#32 || c == 95#32 || c == 46#32 || c == 126#32)

def urlEncodeStep (isSigned : Bool) (s : List char) (e : List char) (i : ℕ) : List char :=
  let c := s.getD i 0
  let n := promote isSigned c
  if isKept n then e ++ [c]
  else
    let e := e ++ [37]
    let e := e ++ [lookup.getD ((n &&& 0xF0#32).sshiftRight 4).toNat 0]
    e ++ [lookup.getD (n &&& 0x0F#32).toNat 0]

/-- `s.length()` becomes an `int` before the loop compares with it. -/
def urlEncode (isSigned : Bool) (s : List char) : List char :=
  let ix := (BitVec.ofNat 32 s.length).toInt
  forLoop 0 ix.toNat (urlEncodeStep isSigned s) []

/-- `A-Z a-z 0-9 - _ . ~` -/
def IsUnreserved (b : UInt8) : Prop :=
  'A'.toNat ≤ b.toNat ∧ b.toNat ≤ 'Z'.toNat ∨ 'a'.toNat ≤ b.toNat ∧ b.toNat ≤ 'z'.toNat ∨
    '0'.toNat ≤ b.toNat ∧ b.toNat ≤ '9'.toNat ∨ b.toNat = '-'.toNat ∨ b.toNat = '_'.toNat ∨
    b.toNat = '.'.toNat ∨ b.toNat = '~'.toNat

def IsLowerHexDigit (b : UInt8) : Prop :=
  '0'.toNat ≤ b.toNat ∧ b.toNat ≤ '9'.toNat ∨ 'a'.toNat ≤ b.toNat ∧ b.toNat ≤ 'f'.toNat

def urlEncodeChar (isSigned : Bool) (c : char) : List char := urlEncodeStep isSigned [c] [] 0

variable {isSigned : Bool} {c : char} {s : List char}

theorem toInt_promote : (promote isSigned c).toInt =
    if isSigned ∧ 128 ≤ c.toNat then (c.toNat : ℤ) - 256 else c.toNat := by
  have hc := c.toNat_lt
  cases isSigned with
  | true =>
    show (c.toBitVec.signExtend 32).toInt = _
    rw [BitVec.toInt_signExtend_of_le (by omega), BitVec.toInt_eq_toNat_cond, UInt8.toNat_toBitVec]
    simp only [true_and]
    split <;> split <;> omega
  | false =>
    show (c.toBitVec.setWidth 32).toInt = _
    rw [BitVec.toInt_setWidth, UInt8.toNat_toBitVec]
    simp [Int.bmod]
    omega

theorem setWidth_promote : (promote isSigned c).setWidth 8 = c.toBitVec := by
  apply BitVec.eq_of_getLsbD_eq
  intro i hi
  have hi32 : i < 32 := by omega
  cases isSigned with
  | true => simp only [promote, if_true, BitVec.getLsbD_setWidth, BitVec.getLsbD_signExtend, hi, hi32,
      decide_true, Bool.true_and]
  | false => simp [promote]

theorem promote_and (m : BitVec 8) :
    promote isSigned c &&& m.setWidth 32 = (c.toBitVec &&& m).setWidth 32 := by
  have h : (promote isSigned c).setWidth 8 = c.toBitVec := setWidth_promote
  rw [← h]
  ext i hi
  by_cases h8 : i < 8
  · simp [h8, BitVec.getLsbD_eq_getElem hi]
  · simp [h8, BitVec.getLsbD_of_ge m i (by omega)]

theorem highNibble : ((promote isSigned c &&& 0xF0#32).sshiftRight 4).toNat = c.toNat / 16 := by
  have hmask : 0xF0#32 = (0xF0#8).setWidth 32 := rfl
  have hc := c.toNat_lt
  have hmsb : ((c.toBitVec &&& 0xF0#8).setWidth 32).msb = false := by simp [BitVec.msb_setWidth]
  rw [hmask, promote_and, BitVec.sshiftRight_eq_of_msb_false hmsb, BitVec.toNat_ushiftRight,
    BitVec.toNat_setWidth, BitVec.toNat_and, UInt8.toNat_toBitVec]
  have hle : c.toNat &&& 0xF0 ≤ c.toNat := Nat.and_le_left
  show ((c.toNat &&& 0xF0) % 2 ^ 32) >>> 4 = c.toNat / 16
  rw [Nat.mod_eq_of_lt (by omega), Nat.shiftRight_and_distrib]
  show c.toNat >>> 4 &&& 2 ^ 4 - 1 = c.toNat / 16
  rw [Nat.and_two_pow_sub_one_eq_mod, Nat.shiftRight_eq_div_pow]
  omega

theorem lowNibble : (promote isSigned c &&& 0x0F#32).toNat = c.toNat % 16 := by
  have hmask : 0x0F#32 = (0x0F#8).setWidth 32 := rfl
  have hc := c.toNat_lt
  rw [hmask, promote_and, BitVec.toNat_setWidth, BitVec.toNat_and, UInt8.toNat_toBitVec]
  show (c.toNat &&& 2 ^ 4 - 1) % 2 ^ 32 = c.toNat % 16
  rw [Nat.and_two_pow_sub_one_eq_mod]
  omega

theorem isKept_promote : isKept (promote isSigned c) = true ↔ IsUnreserved c := by
  have hc := c.toNat_lt
  have h : (promote isSigned c).toInt = if isSigned ∧ 128 ≤ c.toNat then (c.toNat : ℤ) - 256 else c.toNat :=
    toInt_promote
  have hiff : isKept (promote isSigned c) = true ↔
      let n := (promote isSigned c).toInt
      (48 ≤ n ∧ n ≤ 57 ∨ 65 ≤ n ∧ n ≤ 90) ∨ 97 ≤ n ∧ n ≤ 122 ∨ n = 45 ∨ n = 95 ∨ n = 46 ∨ n = 126 := by
    simp only [isKept, Bool.or_eq_true, Bool.and_eq_true, BitVec.sle_iff_toInt_le, beq_iff_eq,
      ← BitVec.toInt_inj, or_assoc]
    rfl
  rw [hiff, h]
  show _ ↔ 65 ≤ c.toNat ∧ c.toNat ≤ 90 ∨ 97 ≤ c.toNat ∧ c.toNat ≤ 122 ∨ 48 ≤ c.toNat ∧ c.toNat ≤ 57 ∨
    c.toNat = 45 ∨ c.toNat = 95 ∨ c.toNat = 46 ∨ c.toNat = 126
  dsimp only
  split <;> omega

theorem lookup_digit {n : ℕ} (hn : n < 16) : IsLowerHexDigit (lookup.getD n 0) ∧
    hexValue (lookup.getD n 0) = some n := by
  unfold IsLowerHexDigit
  revert n; decide

theorem urlEncodeStep_eq (e : List char) (i : ℕ) :
    urlEncodeStep isSigned s e i = e ++ urlEncodeChar isSigned (s.getD i 0) := by
  unfold urlEncodeChar urlEncodeStep
  simp only [List.getD_cons_zero]
  split
  · rfl
  · simp

theorem piece_urlEncodeChar : Piece IsUnreserved IsLowerHexDigit c (urlEncodeChar isSigned c) := by
  have hc := c.toNat_lt
  unfold urlEncodeChar urlEncodeStep
  simp only [List.getD_cons_zero]
  split
  · rename_i h
    exact .kept (isKept_promote.1 h)
  · obtain ⟨hhi, hhi'⟩ := lookup_digit (show c.toNat / 16 < 16 by omega)
    obtain ⟨hlo, hlo'⟩ := lookup_digit (show c.toNat % 16 < 16 by omega)
    rw [highNibble, lowNibble]
    exact .escape hhi hlo hhi' hlo'

/-! ### The loop -/

theorem urlEncode_eq (hs : s.length ≤ INT_MAX) :
    urlEncode isSigned s = s.flatMap (urlEncodeChar isSigned) := by
  have hix : (BitVec.ofNat 32 s.length).toInt.toNat = s.length := by
    unfold INT_MAX at hs
    rw [BitVec.toInt_ofNat', Int.bmod_eq_of_le (by omega) (by omega)]
    rfl
  show forLoop 0 (BitVec.ofNat 32 s.length).toInt.toNat (urlEncodeStep isSigned s) [] = _
  rw [hix]
  have hinv : ∀ n ≤ s.length, forLoop 0 n (urlEncodeStep isSigned s) [] =
      (s.take n).flatMap (urlEncodeChar isSigned) := by
    intro n
    induction n with
    | zero => intro _; rw [forLoop_of_le (Nat.le_refl 0)]; rfl
    | succ n ih =>
      intro hn
      rw [forLoop_succ (Nat.zero_le n), ih (by omega), urlEncodeStep_eq, List.take_add_one,
        List.flatMap_append, List.getD_eq_getElem?_getD, List.getElem?_eq_getElem (by omega)]
      simp
  rw [hinv s.length (Nat.le_refl _), List.take_length]

theorem urlEncode_correct (isSigned : Bool) (s : List char) (hs : s.length ≤ INT_MAX) :
    Encoded IsUnreserved IsLowerHexDigit (urlEncode isSigned s) ∧
    percentDecode (urlEncode isSigned s) = s ∧
    (∀ s' : List char, s'.length ≤ INT_MAX → urlEncode isSigned s' = urlEncode isSigned s → s' = s) ∧
    ∀ t : List char, (s ++ t).length ≤ INT_MAX →
      urlEncode isSigned (s ++ t) = urlEncode isSigned s ++ urlEncode isSigned t := by
  have hpercent : ¬ IsUnreserved percent := by unfold IsUnreserved; decide
  have hdecode : ∀ s : List char, s.length ≤ INT_MAX → percentDecode (urlEncode isSigned s) = s :=
    fun s hs => by
      rw [urlEncode_eq hs, percentDecode_flatMap (fun _ => piece_urlEncodeChar) hpercent]
  refine ⟨?_, hdecode s hs, fun s' hs' h => ?_, fun t ht => ?_⟩
  · rw [urlEncode_eq hs]
    exact encoded_flatMap (fun _ => piece_urlEncodeChar) s
  · rw [← hdecode s' hs', h, hdecode s hs]
  · have ht' : t.length ≤ INT_MAX := by rw [List.length_append] at ht; omega
    rw [urlEncode_eq ht, urlEncode_eq hs, urlEncode_eq ht', List.flatMap_append]

theorem urlEncode_correct_bytes : [37, 0xC3, 65].length ≤ INT_MAX ∧
    urlEncode true [37, 0xC3, 65] = [37, 50, 53, 37, 99, 51, 65] ∧
    percentDecode (urlEncode true [37, 0xC3, 65]) = [37, 0xC3, 65] :=
  ⟨by decide, by decide, (urlEncode_correct true [37, 0xC3, 65] (by decide)).2.1⟩

end CWorkspace.Str
