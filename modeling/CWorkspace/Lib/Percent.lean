import Mathlib.Data.List.Basic

/-!
# Percent-encoding

`percentDecode` reads `%XY` as the byte with the hexadecimal digits `X` and `Y` (of either case) and any
other byte as itself. `Encoded keep digit` are the texts made of bytes that are kept as they are and of
escapes written with the given digits. An encoder that writes every byte as a `Piece` yields such a text
and is undone by the decoder.
-/

namespace CWorkspace.Percent

def percent : UInt8 := 37

def hexValue (b : UInt8) : Option ℕ :=
  if 48 ≤ b.toNat ∧ b.toNat ≤ 57 then some (b.toNat - 48)
  else if 65 ≤ b.toNat ∧ b.toNat ≤ 70 then some (b.toNat - 55)
  else if 97 ≤ b.toNat ∧ b.toNat ≤ 102 then some (b.toNat - 87)
  else none

def percentDecode : List UInt8 → List UInt8
  | b :: hi :: lo :: l =>
    if b = percent then
      match hexValue hi, hexValue lo with
      | some x, some y => UInt8.ofNat (16 * x + y) :: percentDecode l
      | _, _ => b :: percentDecode (hi :: lo :: l)
    else b :: percentDecode (hi :: lo :: l)
  | b :: l => b :: percentDecode l
  | [] => []

inductive Encoded (keep digit : UInt8 → Prop) : List UInt8 → Prop
  | nil : Encoded keep digit []
  | kept {b : UInt8} {l : List UInt8} : keep b → Encoded keep digit l → Encoded keep digit (b :: l)
  | escape {hi lo : UInt8} {l : List UInt8} : digit hi → digit lo → Encoded keep digit l →
      Encoded keep digit (percent :: hi :: lo :: l)

/-- What an encoder may write for the byte `b`. -/
inductive Piece (keep digit : UInt8 → Prop) (b : UInt8) : List UInt8 → Prop
  | kept : keep b → Piece keep digit b [b]
  | escape {hi lo : UInt8} : digit hi → digit lo → hexValue hi = some (b.toNat / 16) →
      hexValue lo = some (b.toNat % 16) → Piece keep digit b [percent, hi, lo]

variable {keep digit : UInt8 → Prop} {enc : UInt8 → List UInt8}

theorem percentDecode_cons_of_ne {b : UInt8} (h : b ≠ percent) (l : List UInt8) :
    percentDecode (b :: l) = b :: percentDecode l := by
  match l with
  | [] => rfl
  | [_] => rfl
  | _ :: _ :: _ => rw [percentDecode, if_neg h]

theorem percentDecode_escape {b hi lo : UInt8} (hhi : hexValue hi = some (b.toNat / 16))
    (hlo : hexValue lo = some (b.toNat % 16)) (l : List UInt8) :
    percentDecode (percent :: hi :: lo :: l) = b :: percentDecode l := by
  rw [percentDecode, if_pos rfl, hhi, hlo]
  show UInt8.ofNat (16 * (b.toNat / 16) + b.toNat % 16) :: percentDecode l = b :: percentDecode l
  rw [show 16 * (b.toNat / 16) + b.toNat % 16 = b.toNat by omega, UInt8.ofNat_toNat]

theorem Piece.decode {b : UInt8} {p : List UInt8} (hp : Piece keep digit b p) (hkeep : ¬ keep percent)
    (l : List UInt8) : percentDecode (p ++ l) = b :: percentDecode l := by
  cases hp with
  | kept hb => exact percentDecode_cons_of_ne (fun h => hkeep (h ▸ hb)) l
  | escape _ _ hhi hlo => exact percentDecode_escape hhi hlo l

theorem Piece.encoded_append {b : UInt8} {p l : List UInt8} (hp : Piece keep digit b p)
    (hl : Encoded keep digit l) : Encoded keep digit (p ++ l) := by
  cases hp with
  | kept hb => exact .kept hb hl
  | escape hhi hlo => exact .escape hhi hlo hl

theorem encoded_flatMap (henc : ∀ b, Piece keep digit b (enc b)) (s : List UInt8) :
    Encoded keep digit (s.flatMap enc) := by
  induction s with
  | nil => exact .nil
  | cons b s ih => rw [List.flatMap_cons]; exact (henc b).encoded_append ih

theorem percentDecode_flatMap (henc : ∀ b, Piece keep digit b (enc b)) (hkeep : ¬ keep percent)
    (s : List UInt8) : percentDecode (s.flatMap enc) = s := by
  induction s with
  | nil => rfl
  | cons b s ih => rw [List.flatMap_cons, (henc b).decode hkeep, ih]

end CWorkspace.Percent
