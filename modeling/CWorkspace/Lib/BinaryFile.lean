import Mathlib.Data.List.Basic
import Mathlib.Data.UInt
import Mathlib.Tactic.TypeStar

/-!
# Reading a binary file

A `BinaryFile` is one that is open for reading. A `Reader` takes bytes from it, one behind the other, and fails at the
end of the file. A reader that takes a fixed number of bytes is a `field`; two of them in a row are one
(`field_bind`), so a record of numbers is read by one `field` whose value says where in the bytes each number is.
-/

namespace CWorkspace

structure BinaryFile where
  data : List UInt8
  pos : ℕ

abbrev Reader := StateT BinaryFile Option

namespace BinaryFile

def rest (s : BinaryFile) : List UInt8 := s.data.drop s.pos

/-- `fread(…, 1, n, fp)`, where it returns `n`. -/
def fread (n : ℕ) : Reader (List UInt8) := fun s =>
  if n ≤ s.rest.length then some (s.rest.take n, { s with pos := s.pos + n }) else none

/-- A position behind the end is one too; nothing can be read there. -/
def fseek (pos : ℕ) : Reader Unit := fun s => some ((), { s with pos := pos })

def fgetc : Reader UInt8 := do
  let byte ← fread 1
  return byte.getD 0 0

theorem fread_eq_some_iff {data : List UInt8} {pos n : ℕ} {r : List UInt8 × BinaryFile} :
    fread n ⟨data, pos⟩ = some r ↔ n ≤ data.length - pos ∧ r = ((data.drop pos).take n, ⟨data, pos + n⟩) := by
  unfold fread rest
  rw [List.length_drop]
  split_ifs with h
  · simp [h, eq_comm]
  · simp [h]

theorem fseek_eq_some_iff {pos : ℕ} {s : BinaryFile} {r : Unit × BinaryFile} :
    fseek pos s = some r ↔ True ∧ r = ((), { s with pos := pos }) := by
  unfold fseek
  simp [eq_comm]

section
variable {α β : Type} {n m : ℕ} {s : BinaryFile}

/-- Takes `n` bytes, for the value they have. -/
def field (n : ℕ) (f : List UInt8 → α) : Reader α := do
  let bytes ← fread n
  return f bytes

theorem field_run (n : ℕ) (f : List UInt8 → α) (s : BinaryFile) : field n f s =
    if n ≤ s.rest.length then some (f (s.rest.take n), { s with pos := s.pos + n }) else none := by
  show (fread n s).bind _ = _
  unfold fread
  split_ifs <;> rfl

theorem field_eq_some_iff {f : List UInt8 → α} {r : α × BinaryFile} : field n f s = some r ↔
    n ≤ s.rest.length ∧ r = (f (s.rest.take n), { s with pos := s.pos + n }) := by
  rw [field_run]
  split_ifs with h
  · simp [h, eq_comm]
  · simp [h]

theorem fgetc_eq : fgetc = field 1 fun bytes => bytes.getD 0 0 := rfl

theorem field_map (f : List UInt8 → α) (g : α → β) :
    (field n f >>= fun a => pure (g a)) = field n fun bytes => g (f bytes) := by
  funext s
  show (field n f s).bind _ = _
  rw [field_run, field_run]
  split_ifs <;> rfl

theorem field_congr {f g : List UInt8 → α} (h : ∀ bytes, bytes.length = n → f bytes = g bytes) :
    field n f = field n g := by
  funext s
  rw [field_run, field_run]
  split_ifs with hn
  · rw [h _ (by rw [List.length_take]; omega)]
  · rfl

theorem field_bind (f : List UInt8 → α) (g : α → List UInt8 → β) : (field n f >>= fun a => field m (g a)) =
    field (n + m) fun bytes => g (f (bytes.take n)) (bytes.drop n) := by
  funext s
  show (field n f s).bind _ = _
  rw [field_run, field_run]
  by_cases hn : n ≤ s.rest.length
  · have hrest : ({ s with pos := s.pos + n } : BinaryFile).rest = s.rest.drop n := (List.drop_drop ..).symm
    rw [if_pos hn, Option.bind_some]
    dsimp only
    rw [field_run, hrest, List.length_drop]
    by_cases hm : n + m ≤ s.rest.length
    · rw [if_pos (by omega), if_pos hm, List.take_take, Nat.min_eq_left (Nat.le_add_right n m),
        List.drop_take, Nat.add_sub_cancel_left, Nat.add_assoc]
    · rw [if_neg (by omega), if_neg hm]
  · rw [if_neg hn, if_neg (by omega)]
    rfl

theorem bind_eq_some_iff {x : Reader α} {k : α → Reader β} {r : β × BinaryFile} :
    (x >>= k) s = some r ↔ ∃ y, x s = some y ∧ k y.1 y.2 = some r := Option.bind_eq_some_iff

theorem bind_iff_of {x : Reader α} {y : α × BinaryFile} {c : Prop} (hx : ∀ y', x s = some y' ↔ c ∧ y' = y)
    {k : α → Reader β} {r : β × BinaryFile} : (x >>= k) s = some r ↔ c ∧ k y.1 y.2 = some r := by
  rw [bind_eq_some_iff]
  constructor
  · rintro ⟨y', hy', hk⟩
    obtain ⟨hc, rfl⟩ := (hx y').1 hy'
    exact ⟨hc, hk⟩
  · rintro ⟨hc, hk⟩
    exact ⟨y, (hx y).2 ⟨hc, rfl⟩, hk⟩

theorem guard_eq_some_iff {c : Prop} [Decidable c] {k : Unit → Reader α} {r : α × BinaryFile} :
    (guard c >>= k) s = some r ↔ c ∧ k () s = some r := by
  rw [bind_eq_some_iff]
  by_cases hc : c
  · rw [guard, if_pos hc]
    exact ⟨fun ⟨_, hy, hk⟩ => ⟨hc, by cases hy; exact hk⟩, fun h => ⟨((), s), rfl, h.2⟩⟩
  · rw [guard, if_neg hc]
    exact ⟨fun ⟨_, hy, _⟩ => (nomatch hy), fun h => absurd h.1 hc⟩

end

/-! ### Little-endian numbers -/

def littleEndian : List UInt8 → ℕ
  | [] => 0
  | byte :: bytes => byte.toNat + 256 * littleEndian bytes

theorem littleEndian_lt (bytes : List UInt8) : littleEndian bytes < 256 ^ bytes.length := by
  induction bytes with
  | nil => exact Nat.one_pos
  | cons byte bytes ih =>
    have hbyte := byte.toNat_lt
    rw [littleEndian, List.length_cons, Nat.pow_succ]
    omega

def littleBytes : ℕ → ℕ → List UInt8
  | 0, _ => []
  | n + 1, v => UInt8.ofNat v :: littleBytes n (v / 256)

theorem littleEndian_littleBytes (n v : ℕ) : littleEndian (littleBytes n v) = v % 256 ^ n := by
  induction n generalizing v with
  | zero => exact (Nat.mod_one v).symm
  | succ n ih =>
    have hbyte : (UInt8.ofNat v).toNat = v % 256 := UInt8.toNat_ofNat'
    rw [littleBytes, littleEndian, ih, hbyte, Nat.pow_succ', Nat.mod_mul]

/-- The number in the `n` bytes from `off` on. -/
def numberAt (data : List UInt8) (off n : ℕ) : ℕ := littleEndian ((data.drop off).take n)

theorem numberAt_lt (data : List UInt8) (off n : ℕ) : numberAt data off n < 256 ^ n :=
  lt_of_lt_of_le (littleEndian_lt _) (Nat.pow_le_pow_right (by omega) (by rw [List.length_take]; omega))

theorem numberAt_take_drop {data : List UInt8} {pos len off n : ℕ} (h : off + n ≤ len) :
    numberAt ((data.drop pos).take len) off n = numberAt data (pos + off) n := by
  rw [numberAt, numberAt, List.drop_take, List.take_take, List.drop_drop, Nat.min_eq_left (by omega)]

end BinaryFile

end CWorkspace
