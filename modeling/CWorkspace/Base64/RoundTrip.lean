import Mathlib.Algebra.Group.Nat.Defs
import Mathlib.Tactic.SplitIfs
import CWorkspace.Base64

/-!
# What is encoded is decoded

With an alphabet of different characters, and separators that are not among them, the decoder gives back every
text, whatever the length of the lines (`decode_encodeEx`).
-/

namespace CWorkspace.Base64

/-! ### The tables -/

def IsAlphanumeric (c : char) : Prop :=
  48 ≤ c.toNat ∧ c.toNat ≤ 57 ∨ 65 ≤ c.toNat ∧ c.toNat ≤ 90 ∨ 97 ≤ c.toNat ∧ c.toNat ≤ 122

/-- Three characters beside the letters and the digits. -/
structure Distinct (chPlus chSplash chPad : char) : Prop where
  plus : ¬ IsAlphanumeric chPlus
  splash : ¬ IsAlphanumeric chSplash
  pad : ¬ IsAlphanumeric chPad
  plus_ne_splash : chPlus ≠ chSplash
  plus_ne_pad : chPlus ≠ chPad
  splash_ne_pad : chSplash ≠ chPad

/-- The tables are inverse to each other, and the separators are ignored. -/
structure Faithful (ctx : Context) : Prop where
  value : ∀ i < 64, ctx.charToValue (ctx.valueToChar i) = i
  pad : ctx.charToValue ctx.padCh = BASE64_PAD
  separator : ∀ c ∈ ctx.lineSeparator, ctx.charToValue c = BASE64_IGNORE

section
variable {chPlus chSplash chPad c : char} {i j : ℕ}

variable (chPlus chSplash) in
theorem valueTable_cases (hi : i < 64) : (i < 62 ∧ IsAlphanumeric (valueTable chPlus chSplash i) ∧
      (valueTable chPlus chSplash i).toNat = if i < 26 then 65 + i else if i < 52 then 71 + i else i - 4) ∨
    i = 62 ∧ valueTable chPlus chSplash i = chPlus ∨ i = 63 ∧ valueTable chPlus chSplash i = chSplash := by
  have hletter : ∀ n < 256, (UInt8.ofNat n).toNat = n := fun n hn => by
    rw [UInt8.toNat_ofNat', Nat.mod_eq_of_lt hn]
  unfold IsAlphanumeric valueTable
  split_ifs with h₁ h₂ h₃ h₄
  · rw [hletter _ (by omega)]
    omega
  · rw [hletter _ (by omega)]
    omega
  · rw [hletter _ (by omega)]
    omega
  · exact .inr (.inl ⟨h₄, rfl⟩)
  · exact .inr (.inr ⟨by omega, rfl⟩)

theorem valueTable_injective (h : Distinct chPlus chSplash chPad) (hi : i < 64) (hj : j < 64)
    (heq : valueTable chPlus chSplash i = valueTable chPlus chSplash j) : i = j := by
  rcases valueTable_cases chPlus chSplash hi with ⟨hi', hi₁, hi₂⟩ | ⟨rfl, hi₁⟩ | ⟨rfl, hi₁⟩ <;>
    rcases valueTable_cases chPlus chSplash hj with ⟨hj', hj₁, hj₂⟩ | ⟨rfl, hj₁⟩ | ⟨rfl, hj₁⟩
  · rw [heq] at hi₂
    split_ifs at hi₂ hj₂ <;> omega
  · rw [heq, hj₁] at hi₁
    exact absurd hi₁ h.plus
  · rw [heq, hj₁] at hi₁
    exact absurd hi₁ h.splash
  · rw [← heq, hi₁] at hj₁
    exact absurd hj₁ h.plus
  · rfl
  · exact absurd (hi₁.symm.trans (heq.trans hj₁)) h.plus_ne_splash
  · rw [← heq, hi₁] at hj₁
    exact absurd hj₁ h.splash
  · exact absurd (hj₁.symm.trans (heq.symm.trans hi₁)) h.plus_ne_splash
  · rfl

theorem charTable_of_forall_ne {valueToChar : ℕ → char} {n : ℕ} (h : ∀ i < n, valueToChar i ≠ c) :
    charTable valueToChar n c = BASE64_IGNORE := by
  induction n with
  | zero => rfl
  | succ n ih =>
    rw [charTable, Function.update_of_ne (Ne.symm (h n n.lt_succ_self))]
    exact ih fun i hi => h i (Nat.lt_succ_of_lt hi)

theorem charTable_valueToChar {valueToChar : ℕ → char} {n : ℕ}
    (h : ∀ i < n, ∀ j < n, valueToChar i = valueToChar j → i = j) (hi : i < n) :
    charTable valueToChar n (valueToChar i) = i := by
  induction n with
  | zero => exact absurd hi (Nat.not_lt_zero i)
  | succ n ih =>
    rw [charTable]
    rcases Nat.lt_succ_iff_lt_or_eq.1 hi with hlt | rfl
    · have hne : valueToChar i ≠ valueToChar n := fun heq => by
        have := h i hi n n.lt_succ_self heq
        omega
      rw [Function.update_of_ne hne]
      exact ih (fun i hi j hj => h i (Nat.lt_succ_of_lt hi) j (Nat.lt_succ_of_lt hj)) hlt
    · rw [Function.update_self]

theorem faithful_initEx (h : Distinct chPlus chSplash chPad) (nLineLength : ℤ) {sep : List char}
    (hsep : ∀ c ∈ sep.take 15, ¬ IsAlphanumeric c ∧ c ≠ chPlus ∧ c ≠ chSplash ∧ c ≠ chPad) :
    Faithful (setLineSeparator (initEx nLineLength chPlus chSplash chPad) sep) := by
  refine ⟨fun i hi => ?_, Function.update_self _ _ _, fun c hc => ?_⟩
  · have hne : valueTable chPlus chSplash i ≠ chPad := by
      rcases valueTable_cases chPlus chSplash hi with ⟨-, hi₁, -⟩ | ⟨rfl, hi₁⟩ | ⟨rfl, hi₁⟩
      · intro heq
        rw [heq] at hi₁
        exact h.pad hi₁
      · rw [hi₁]
        exact h.plus_ne_pad
      · rw [hi₁]
        exact h.splash_ne_pad
    show Function.update _ _ _ (valueTable chPlus chSplash i) = _
    rw [Function.update_of_ne hne]
    exact charTable_valueToChar (fun i hi j hj => valueTable_injective h hi hj) hi
  · obtain ⟨halnum, hplus, hsplash, hpad⟩ := hsep c hc
    show Function.update _ _ _ _ = _
    rw [Function.update_of_ne hpad]
    refine charTable_of_forall_ne fun i hi heq => ?_
    rcases valueTable_cases chPlus chSplash hi with ⟨-, hi₁, -⟩ | ⟨rfl, hi₁⟩ | ⟨rfl, hi₁⟩
    · rw [heq] at hi₁
      exact halnum hi₁
    · exact hplus (heq.symm.trans hi₁)
    · exact hsplash (heq.symm.trans hi₁)

end

def bytes (n : ℕ) : List char := [UInt8.ofNat (n / 65536), UInt8.ofNat (n / 256 % 256), UInt8.ofNat (n % 256)]

theorem bytes_combine (a b c : char) : bytes (a.toNat * 65536 + b.toNat * 256 + c.toNat) = [a, b, c] := by
  have ha := a.toNat_lt
  have hb := b.toNat_lt
  have hc := c.toNat_lt
  have h₁ : (a.toNat * 65536 + b.toNat * 256 + c.toNat) / 65536 = a.toNat := by omega
  have h₂ : (a.toNat * 65536 + b.toNat * 256 + c.toNat) / 256 % 256 = b.toNat := by omega
  have h₃ : (a.toNat * 65536 + b.toNat * 256 + c.toNat) % 256 = c.toNat := by omega
  rw [bytes, h₁, h₂, h₃, UInt8.ofNat_toNat, UInt8.ofNat_toNat, UInt8.ofNat_toNat]

theorem shiftLeft_or {i m n : ℕ} (h : n < 2 ^ i) : m <<< i ||| n = m * 2 ^ i + n := by
  rw [← Nat.shiftLeft_add_eq_or_of_lt h, Nat.shiftLeft_eq]

theorem and_sixBits (n : ℕ) : n &&& 0x3f = n % 64 := Nat.and_two_pow_sub_one_eq_mod n 6

theorem quad_eq (ctx : Context) (a b c : char) {n : ℕ} (hn : n = a.toNat * 65536 + b.toNat * 256 + c.toNat) :
    quad ctx a b c = [ctx.valueToChar (n / 262144), ctx.valueToChar (n / 4096 % 64), ctx.valueToChar (n / 64 % 64),
      ctx.valueToChar (n % 64)] := by
  have ha := a.toNat_lt
  have hb := b.toNat_lt
  have hc := c.toNat_lt
  have hcombined : a.toNat <<< 16 ||| b.toNat <<< 8 ||| c.toNat = n := by
    rw [Nat.or_assoc, shiftLeft_or (i := 8) (by omega), shiftLeft_or (by omega)]
    omega
  have htop : n / 262144 % 64 = n / 262144 := Nat.mod_eq_of_lt (by omega)
  unfold quad
  simp only [hcombined, and_sixBits, Nat.shiftRight_eq_div_pow, Nat.div_div_eq_div_mul, Nat.reducePow,
    Nat.reduceMul, htop]

theorem decoded_bytes (n : ℕ) :
    [UInt8.ofNat (n >>> 16), UInt8.ofNat ((n &&& 0x0000FF00) >>> 8), UInt8.ofNat (n &&& 0x000000FF)] = bytes n := by
  have hmiddle : (n &&& 0x0000FF00) >>> 8 = n / 256 % 256 := by
    rw [Nat.shiftRight_and_distrib, Nat.shiftRight_eq_div_pow]
    exact Nat.and_two_pow_sub_one_eq_mod _ 8
  rw [hmiddle, Nat.shiftRight_eq_div_pow, show n &&& 0x000000FF = n % 256 from Nat.and_two_pow_sub_one_eq_mod n 8]
  rfl

/-! ### The decoder -/

/-- The characters that are not ignored. -/
def data (ctx : Context) (text : List char) : List char := text.filter fun c => ctx.charToValue c ≠ BASE64_IGNORE

def isPad (ctx : Context) (c : char) : Bool := ctx.charToValue c = BASE64_PAD

def valueOf (ctx : Context) (c : char) : ℕ := if isPad ctx c then 0 else (ctx.charToValue c).toNat

/-- What is stored for the groups of four characters. -/
def groupBytes (ctx : Context) : List char → List char
  | w :: x :: y :: z :: l =>
    bytes ((((valueOf ctx w <<< 6 ||| valueOf ctx x) <<< 6 ||| valueOf ctx y) <<< 6) ||| valueOf ctx z) ++
      groupBytes ctx l
  | _ => []

section
variable {ctx : Context} {text l : List char} {s : Decoding} {c : char}

theorem foldl_data (text : List char) (s : Decoding) :
    (data ctx text).foldl (decodeChar ctx) s = text.foldl (decodeChar ctx) s := by
  rw [data, List.foldl_filter]
  congr 1
  funext s c
  unfold decodeChar
  by_cases h : ctx.charToValue c = BASE64_IGNORE <;> simp [h]

theorem decodeChar_of_data (h : ctx.charToValue c ≠ BASE64_IGNORE) : decodeChar ctx s c =
    decodeValue { s with dummies := s.dummies + if isPad ctx c then 1 else 0 } (valueOf ctx c) := by
  unfold decodeChar valueOf
  rw [if_neg h]
  by_cases hpad : ctx.charToValue c = BASE64_PAD
  · rw [show isPad ctx c = true from decide_eq_true hpad, if_pos hpad]
    rfl
  · rw [show isPad ctx c = false from decide_eq_false hpad, if_neg hpad, if_neg Bool.false_ne_true,
      if_neg Bool.false_ne_true, Int.add_zero]

theorem decodeValue_short (h : s.cycle < 3) (value : ℕ) : (decodeValue s value).dest = s.dest ∧
    (decodeValue s value).pDest = s.pDest ∧ (decodeValue s value).cycle = s.cycle + 1 ∧
    (decodeValue s value).dummies = s.dummies := by
  unfold decodeValue
  split_ifs with h₀ h₁ h₂
  · exact ⟨rfl, rfl, by rw [h₀], rfl⟩
  · exact ⟨rfl, rfl, by rw [h₁], rfl⟩
  · exact ⟨rfl, rfl, by rw [h₂], rfl⟩
  · omega

theorem foldl_decodeChar_short (hl : ∀ c ∈ l, ctx.charToValue c ≠ BASE64_IGNORE) (h : s.cycle + l.length ≤ 3) :
    (l.foldl (decodeChar ctx) s).dest = s.dest ∧ (l.foldl (decodeChar ctx) s).pDest = s.pDest ∧
      (l.foldl (decodeChar ctx) s).cycle = s.cycle + l.length ∧
      (l.foldl (decodeChar ctx) s).dummies = s.dummies + (l.countP (isPad ctx) : ℕ) := by
  induction l generalizing s with
  | nil => exact ⟨rfl, rfl, rfl, (Int.add_zero _).symm⟩
  | cons c l ih =>
    obtain ⟨hc, hl⟩ := List.forall_mem_cons.1 hl
    rw [List.length_cons] at h
    obtain ⟨hdest, hpDest, hcycle, hdummies⟩ :
        (decodeChar ctx s c).dest = s.dest ∧ (decodeChar ctx s c).pDest = s.pDest ∧
          (decodeChar ctx s c).cycle = s.cycle + 1 ∧
          (decodeChar ctx s c).dummies = s.dummies + if isPad ctx c then 1 else 0 := by
      rw [decodeChar_of_data hc]
      refine decodeValue_short ?_ _
      show s.cycle < 3
      omega
    obtain ⟨ih₁, ih₂, ih₃, ih₄⟩ := ih (s := decodeChar ctx s c) hl (by omega)
    rw [List.foldl_cons, List.length_cons, List.countP_cons]
    refine ⟨ih₁.trans hdest, ih₂.trans hpDest, by omega, ?_⟩
    rw [ih₄, hdummies]
    split_ifs <;> omega

/-- The decoder has stored `out`, and is between two groups. -/
structure Between (dest₀ : Block char) (out : List char) (s : Decoding) : Prop where
  dest : s.dest = dest₀.storeAll 0 out
  pDest : s.pDest = out.length
  cycle : s.cycle = 0

theorem Between.group {dest₀ : Block char} {out : List char} {w x y z : char} (h : Between dest₀ out s)
    (hl : ∀ c ∈ [w, x, y, z], ctx.charToValue c ≠ BASE64_IGNORE) :
    Between dest₀ (out ++ groupBytes ctx [w, x, y, z]) ([w, x, y, z].foldl (decodeChar ctx) s) ∧
      ([w, x, y, z].foldl (decodeChar ctx) s).dummies = s.dummies + ([w, x, y, z].countP (isPad ctx) : ℕ) := by
  simp only [List.forall_mem_cons] at hl
  obtain ⟨hw, hx, hy, hz, -⟩ := hl
  simp only [List.foldl_cons, List.foldl_nil, decodeChar_of_data hw, decodeChar_of_data hx, decodeChar_of_data hy,
    decodeChar_of_data hz]
  have hcycle := h.cycle
  unfold decodeValue
  simp only [hcycle, if_true, if_false, Nat.reduceEqDiff, decoded_bytes]
  refine ⟨⟨?_, ?_, rfl⟩, ?_⟩
  · rw [Block.storeAll_append, h.dest, h.pDest, Int.zero_add]
    rfl
  · rw [h.pDest, List.length_append]
    rfl
  · simp only [List.countP_cons, List.countP_nil]
    split_ifs <;> omega

/-- What the loop leaves. -/
structure Decoded (ctx : Context) (dest₀ : Block char) (out l : List char) (dummies : ℤ) (s : Decoding) : Prop where
  dest : s.dest = dest₀.storeAll 0 (out ++ groupBytes ctx l)
  pDest : s.pDest = (out ++ groupBytes ctx l).length
  cycle : s.cycle = l.length % 4
  dummies : s.dummies = dummies + (l.countP (isPad ctx) : ℕ)

theorem length_lt_of_short (h : ∀ w x y z l', l = w :: x :: y :: z :: l' → False) : l.length < 4 := by
  rcases l with _ | ⟨w, _ | ⟨x, _ | ⟨y, _ | ⟨z, l⟩⟩⟩⟩
  · exact Nat.zero_lt_succ 3
  · exact Nat.succ_lt_succ (Nat.zero_lt_succ 2)
  · exact Nat.succ_lt_succ (Nat.succ_lt_succ (Nat.zero_lt_succ 1))
  · exact Nat.lt_succ_self 3
  · exact (h _ _ _ _ _ rfl).elim

theorem Between.decoded {dest₀ : Block char} {out : List char} (h : Between dest₀ out s)
    (hl : ∀ c ∈ l, ctx.charToValue c ≠ BASE64_IGNORE) :
    Decoded ctx dest₀ out l s.dummies (l.foldl (decodeChar ctx) s) := by
  induction l using groupBytes.induct generalizing out s with
  | case1 w x y z l ih =>
    have hsplit : w :: x :: y :: z :: l = [w, x, y, z] ++ l := rfl
    rw [hsplit] at hl ⊢
    obtain ⟨hgroup, hdummies⟩ := h.group fun c hc => hl c (List.mem_append_left _ hc)
    obtain ⟨hdest, hpDest, hcycle, hdummies'⟩ := ih hgroup fun c hc => hl c (List.mem_append_right _ hc)
    have hbytes : groupBytes ctx ([w, x, y, z] ++ l) = groupBytes ctx [w, x, y, z] ++ groupBytes ctx l := by
      simp only [List.cons_append, List.nil_append, groupBytes, List.append_nil]
    rw [List.foldl_append]
    refine ⟨?_, ?_, ?_, ?_⟩
    · rw [hdest, hbytes, List.append_assoc]
    · rw [hpDest, hbytes, List.append_assoc]
    · rw [hcycle, List.length_append]
      simp
    · rw [hdummies', hdummies, List.countP_append]
      omega
  | case2 l hshort =>
    have hbytes : groupBytes ctx l = [] := by
      unfold groupBytes
      split
      · exact absurd rfl (hshort _ _ _ _ _)
      · rfl
    have hlen := length_lt_of_short hshort
    have hcycle := h.cycle
    obtain ⟨h₁, h₂, h₃, h₄⟩ := foldl_decodeChar_short hl (s := s) (by omega)
    exact ⟨by rw [h₁, h.dest, hbytes, List.append_nil], by rw [h₂, h.pDest, hbytes, List.append_nil],
      by omega, h₄⟩

theorem length_groupBytes (ctx : Context) (l : List char) : (groupBytes ctx l).length = 3 * (l.length / 4) := by
  induction l using groupBytes.induct with
  | case1 w x y z l ih =>
    rw [groupBytes, List.length_append, ih]
    simp only [bytes, List.length_cons, List.length_nil]
    omega
  | case2 l hshort =>
    unfold groupBytes
    split
    · exact absurd rfl (hshort _ _ _ _ _)
    · rw [List.length_nil, Nat.div_eq_of_lt (length_lt_of_short hshort)]

theorem mem_data {c : char} (h : c ∈ data ctx text) : ctx.charToValue c ≠ BASE64_IGNORE :=
  of_decide_eq_true (List.mem_filter.1 h).2

/-- Three bytes for each four characters, less those for padding. -/
def decodedLength (ctx : Context) (text : List char) : ℤ :=
  ((3 * ((data ctx text).length / 4) : ℕ) : ℤ) - ((data ctx text).countP (isPad ctx) : ℕ)

/-- The decoder stores the groups, and a zero where `*dest_len` ends. -/
theorem decode_eq (ctx : Context) (text : List char) (dest : Block char) : decode ctx text dest =
    if (data ctx text).length % 4 ≠ 0 then ((dest.storeAll 0 (groupBytes ctx (data ctx text))).store 0 0, 0)
    else ((dest.storeAll 0 (groupBytes ctx (data ctx text))).store (decodedLength ctx text) 0,
      decodedLength ctx text) := by
  have hstart : Between dest [] (⟨dest, 0, 0, 0, 0⟩ : Decoding) := ⟨rfl, rfl, rfl⟩
  obtain ⟨hdest, hpDest, hcycle, hdummies⟩ := hstart.decoded (l := data ctx text) fun c hc => mem_data hc
  rw [foldl_data] at hdest hpDest hcycle hdummies
  rw [List.nil_append] at hdest hpDest
  rw [length_groupBytes] at hpDest
  rw [Int.zero_add] at hdummies
  unfold decode decodedLength
  dsimp only
  rw [hdest, hpDest, hcycle, hdummies]

/-- Where the characters are complete groups with no more padding than bytes. -/
theorem decode_take (dest : Block char) (h4 : (data ctx text).length % 4 = 0) {n : ℕ}
    (hn : decodedLength ctx text = n) : (decode ctx text dest).2 = n ∧
      (decode ctx text dest).1.take n = (groupBytes ctx (data ctx text)).take n ∧
      (decode ctx text dest).1.get n = 0 := by
  have hle : n ≤ (groupBytes ctx (data ctx text)).length := by
    rw [length_groupBytes]
    unfold decodedLength at hn
    omega
  rw [decode_eq, if_neg (not_not.2 h4), hn]
  refine ⟨rfl, ?_, by rw [Block.get_store, if_pos rfl]⟩
  rw [Block.take_store_of_le _ (Int.le_refl _), ← Block.take_of_le _ hle, Block.take_storeAll]

end

/-! ### The encoder -/

def breakAt (ctx : Context) (linePos : ℤ) : List char :=
  if ctx.lineLength < linePos + 4 ∧ ctx.lineLength ≠ 0 then ctx.lineSeparator else []

def nextPos (ctx : Context) (linePos : ℤ) : ℤ := if ctx.lineLength < linePos + 4 then 4 else linePos + 4

/-- The groups with their line breaks. -/
def lines (ctx : Context) : ℤ → List char → List char
  | linePos, a :: b :: c :: l => breakAt ctx linePos ++ (quad ctx a b c ++ lines ctx (nextPos ctx linePos) l)
  | _, _ => []

def quads (ctx : Context) : List char → List char
  | a :: b :: c :: l => quad ctx a b c ++ quads ctx l
  | _ => []

/-- The encoder has stored `out`. -/
structure Put (dest₀ : Block char) (out : List char) (s : Encoding) : Prop where
  dest : s.dest = dest₀.storeAll 0 out
  pDest : s.pDest = out.length

section
variable {ctx : Context} {dest₀ : Block char} {out l l' : List char} {s : Encoding}

theorem Put.put (h : Put dest₀ out s) (l : List char) : Put dest₀ (out ++ l) (s.put l) := by
  refine ⟨?_, ?_⟩
  · show s.dest.storeAll s.pDest l = _
    rw [Block.storeAll_append, h.dest, h.pDest, Int.zero_add]
  · show s.pDest + l.length = _
    rw [h.pDest, List.length_append]
    rfl

variable (ctx) in
theorem put_startLine (h : Put dest₀ out s) : Put dest₀ (out ++ breakAt ctx s.linePos) (startLine ctx s) ∧
    (startLine ctx s).linePos = nextPos ctx s.linePos := by
  unfold startLine breakAt nextPos
  by_cases hline : ctx.lineLength < s.linePos + 4
  · by_cases hzero : ctx.lineLength ≠ 0
    · obtain ⟨hdest, hpDest⟩ := h.put ctx.lineSeparator
      rw [if_pos hline, if_pos hzero, if_pos ⟨hline, hzero⟩, if_pos hline]
      exact ⟨⟨hdest, hpDest⟩, rfl⟩
    · rw [if_pos hline, if_neg hzero, if_neg fun hboth => hzero hboth.2, if_pos hline, List.append_nil]
      exact ⟨⟨h.dest, h.pDest⟩, rfl⟩
  · rw [if_neg hline, if_neg fun hboth => hline hboth.1, if_neg hline, List.append_nil]
    exact ⟨⟨h.dest, h.pDest⟩, rfl⟩

theorem lines_of_short (hshort : ∀ a b c l', l = a :: b :: c :: l' → False) (linePos : ℤ) :
    lines ctx linePos l = [] := by
  unfold lines
  split
  · exact (hshort _ _ _ _ rfl).elim
  · rfl

variable (ctx) in
theorem put_encodeGroups (h : Put dest₀ out s) (l : List char) :
    Put dest₀ (out ++ lines ctx s.linePos l) (encodeGroups ctx l s) := by
  induction l using quads.induct generalizing out s with
  | case1 a b c l ih =>
    obtain ⟨hline, hpos⟩ := put_startLine ctx h
    have hrest := ih (hline.put (quad ctx a b c))
    have hpos' : ((startLine ctx s).put (quad ctx a b c)).linePos = nextPos ctx s.linePos := hpos
    rw [hpos', List.append_assoc, List.append_assoc] at hrest
    exact hrest
  | case2 l hshort =>
    have hgroups : encodeGroups ctx l s = s := by
      unfold encodeGroups
      split
      · exact absurd rfl (hshort _ _ _ _)
      · rfl
    rw [lines_of_short hshort, hgroups, List.append_nil]
    exact h

end

/-- The characters of `src`: four for three bytes, the last of them for padding. -/
def encoded (ctx : Context) : List char → List char
  | a :: b :: c :: l => quad ctx a b c ++ encoded ctx l
  | [a, b] => (quad ctx a b 0).take 3 ++ [ctx.padCh]
  | [a] => (quad ctx a 0 0).take 2 ++ [ctx.padCh, ctx.padCh]
  | [] => []

def padLen (n : ℕ) : ℕ := (3 - n % 3) % 3

/-- `text` is the groups of four for `src`, with its padding. -/
structure Decodes (ctx : Context) (text src : List char) : Prop where
  bytes : groupBytes ctx text = src ++ List.replicate (padLen src.length) 0
  length : text.length = 4 * ((src.length + 2) / 3)
  pads : text.countP (isPad ctx) = padLen src.length
  data : ∀ c ∈ text, ctx.charToValue c ≠ BASE64_IGNORE

section
variable {ctx : Context} {i n : ℕ} {w x y z : char} {l src text : List char}

theorem groupBytes_of_values (hn : n < 16777216) (hw : valueOf ctx w = n / 262144)
    (hx : valueOf ctx x = n / 4096 % 64) (hy : valueOf ctx y = n / 64 % 64) (hz : valueOf ctx z = n % 64)
    (l : List char) : groupBytes ctx (w :: x :: y :: z :: l) = bytes n ++ groupBytes ctx l := by
  have hcombined : (((n / 262144) <<< 6 ||| n / 4096 % 64) <<< 6 ||| n / 64 % 64) <<< 6 ||| n % 64 = n := by
    rw [shiftLeft_or (by omega), shiftLeft_or (by omega), shiftLeft_or (by omega)]
    omega
  rw [groupBytes, hw, hx, hy, hz, hcombined]

namespace Faithful
variable (h : Faithful ctx)
include h

theorem value_ne_ignore (hi : i < 64) : ctx.charToValue (ctx.valueToChar i) ≠ BASE64_IGNORE := by
  rw [h.value i hi, BASE64_IGNORE]
  omega

theorem isPad_value (hi : i < 64) : isPad ctx (ctx.valueToChar i) = false := by
  refine decide_eq_false ?_
  rw [h.value i hi, BASE64_PAD]
  omega

theorem valueOf_value (hi : i < 64) : valueOf ctx (ctx.valueToChar i) = i := by
  rw [valueOf, h.isPad_value hi, if_neg Bool.false_ne_true, h.value i hi, Int.toNat_natCast]

theorem pad_ne_ignore : ctx.charToValue ctx.padCh ≠ BASE64_IGNORE := by
  rw [h.pad]
  decide

theorem isPad_pad : isPad ctx ctx.padCh = true := decide_eq_true h.pad

theorem valueOf_pad : valueOf ctx ctx.padCh = 0 := if_pos h.isPad_pad

theorem decodes_group (a b c : char) (ht : Decodes ctx text l) :
    Decodes ctx (quad ctx a b c ++ text) (a :: b :: c :: l) := by
  obtain ⟨n, hn⟩ : ∃ n, n = a.toNat * 65536 + b.toNat * 256 + c.toNat := ⟨_, rfl⟩
  have hpad : padLen (l.length + 3) = padLen l.length := by
    rw [padLen, padLen, Nat.add_mod_right]
  have ha := a.toNat_lt
  have hb := b.toNat_lt
  have hc := c.toNat_lt
  have hw : n / 262144 < 64 := by omega
  have hx : n / 4096 % 64 < 64 := Nat.mod_lt _ (by decide)
  have hy : n / 64 % 64 < 64 := Nat.mod_lt _ (by decide)
  have hz : n % 64 < 64 := Nat.mod_lt _ (by decide)
  rw [quad_eq ctx a b c hn]
  refine ⟨?_, ?_, ?_, ?_⟩
  · show groupBytes ctx (_ :: _ :: _ :: _ :: text) = _
    rw [groupBytes_of_values (by omega) (h.valueOf_value hw) (h.valueOf_value hx) (h.valueOf_value hy)
      (h.valueOf_value hz), ht.bytes, hn, bytes_combine]
    show _ = [a, b, c] ++ (l ++ List.replicate (padLen (l.length + 3)) 0)
    rw [hpad]
  · show text.length + 4 = 4 * ((l.length + 3 + 2) / 3)
    rw [ht.length]
    omega
  · show _ = padLen (l.length + 3)
    rw [List.countP_append, ht.pads, hpad]
    simp [h.isPad_value, hw, hx, hy, hz]
  · simp only [List.cons_append, List.nil_append, List.forall_mem_cons]
    exact ⟨h.value_ne_ignore hw, h.value_ne_ignore hx, h.value_ne_ignore hy, h.value_ne_ignore hz, ht.data⟩

theorem decodes_last (hn : n < 16777216) (hbytes : bytes n = src ++ List.replicate (padLen src.length) 0)
    (hpads : [y, z].countP (isPad ctx) = padLen src.length) (hy : valueOf ctx y = n / 64 % 64)
    (hz : valueOf ctx z = n % 64) (hdata : ∀ c ∈ [y, z], ctx.charToValue c ≠ BASE64_IGNORE) :
    Decodes ctx [ctx.valueToChar (n / 262144), ctx.valueToChar (n / 4096 % 64), y, z] src := by
  have hw : n / 262144 < 64 := by omega
  have hx : n / 4096 % 64 < 64 := Nat.mod_lt _ (by decide)
  have hlen : src.length + padLen src.length = 3 := by
    have hthree := congrArg List.length hbytes
    rw [List.length_append, List.length_replicate] at hthree
    exact hthree.symm
  refine ⟨?_, ?_, ?_, ?_⟩
  · rw [groupBytes_of_values hn (h.valueOf_value hw) (h.valueOf_value hx) hy hz, hbytes]
    exact List.append_nil _
  · show 4 = 4 * ((src.length + 2) / 3)
    unfold padLen at hlen
    omega
  · rw [List.countP_cons, List.countP_cons, h.isPad_value hw, h.isPad_value hx, hpads]
    rfl
  · rw [List.forall_mem_cons, List.forall_mem_cons]
    exact ⟨h.value_ne_ignore hw, h.value_ne_ignore hx, hdata⟩

theorem decodes_two (a b : char) : Decodes ctx ((quad ctx a b 0).take 3 ++ [ctx.padCh]) [a, b] := by
  obtain ⟨n, hn⟩ : ∃ n, n = a.toNat * 65536 + b.toNat * 256 + (0 : char).toNat := ⟨_, rfl⟩
  have ha := a.toNat_lt
  have hb := b.toNat_lt
  have hzero : (0 : char).toNat = 0 := rfl
  have hy : n / 64 % 64 < 64 := Nat.mod_lt _ (by decide)
  have hz : 0 = n % 64 := by omega
  rw [quad_eq ctx a b 0 hn]
  refine h.decodes_last (by omega) (by rw [hn, bytes_combine]; rfl) ?_ (h.valueOf_value hy) (h.valueOf_pad.trans hz) ?_
  · rw [List.countP_cons, List.countP_singleton, h.isPad_value hy, h.isPad_pad]
    rfl
  · rw [List.forall_mem_cons, List.forall_mem_singleton]
    exact ⟨h.value_ne_ignore hy, h.pad_ne_ignore⟩

theorem decodes_one (a : char) : Decodes ctx ((quad ctx a 0 0).take 2 ++ [ctx.padCh, ctx.padCh]) [a] := by
  obtain ⟨n, hn⟩ : ∃ n, n = a.toNat * 65536 + (0 : char).toNat * 256 + (0 : char).toNat := ⟨_, rfl⟩
  have ha := a.toNat_lt
  have hzero : (0 : char).toNat = 0 := rfl
  have hy : 0 = n / 64 % 64 := by omega
  have hz : 0 = n % 64 := by omega
  rw [quad_eq ctx a 0 0 hn]
  refine h.decodes_last (by omega) (by rw [hn, bytes_combine]; rfl) ?_ (h.valueOf_pad.trans hy)
    (h.valueOf_pad.trans hz) ?_
  · rw [List.countP_cons, List.countP_singleton, h.isPad_pad]
    rfl
  · rw [List.forall_mem_cons, List.forall_mem_singleton]
    exact ⟨h.pad_ne_ignore, h.pad_ne_ignore⟩

theorem decodes_encoded (src : List char) : Decodes ctx (encoded ctx src) src := by
  induction src using encoded.induct with
  | case1 a b c l ih => exact h.decodes_group a b c ih
  | case2 a b => exact h.decodes_two a b
  | case3 a => exact h.decodes_one a
  | case4 => exact ⟨rfl, rfl, rfl, fun _ hc => absurd hc List.not_mem_nil⟩

end Faithful

end

/-! ### The text the encoder leaves -/

/-- `text` in `dest` with its length in `*dest_len`, and a zero after it. -/
structure Holds (r : Block char × ℤ) (text : List char) : Prop where
  length : r.2 = text.length
  take : r.1.take text.length = text
  zero : r.1.get text.length = 0

section
variable {ctx : Context} {b dest : Block char} {len : ℤ} {l pre rest src text : List char}

theorem holds_storeAll (dest : Block char) (out : List char) :
    Holds ((dest.storeAll 0 out).store out.length 0, (out.length : ℤ)) out := by
  refine ⟨rfl, ?_, ?_⟩
  · rw [Block.take_store_of_le _ (Int.le_refl _), Block.take_storeAll]
  · rw [Block.get_store, if_pos rfl]

theorem Holds.store (h : Holds (b, len) text) {i : ℕ} (hi : i < text.length) (a : char) :
    Holds (b.store i a, len) (text.set i a) := by
  obtain ⟨hlength, htake, hzero⟩ := h
  rw [← List.length_set (a := a) (i := i)] at hlength
  refine ⟨hlength, ?_, ?_⟩
  · rw [List.length_set, Block.take_store, htake]
  · rw [List.length_set, Block.get_store, if_neg (by omega)]
    exact hzero

theorem Holds.cut (h : Holds (b, len) text) {n : ℕ} (hn : n ≤ text.length) :
    Holds (b.store n 0, (n : ℤ)) (text.take n) := by
  have hlength : (text.take n).length = n := List.length_take_of_le hn
  refine ⟨by rw [hlength], ?_, ?_⟩
  · rw [hlength, Block.take_store_of_le _ (Int.le_refl _), ← Block.take_of_le _ hn, h.take]
  · rw [hlength, Block.get_store, if_pos rfl]

theorem data_eq_self (hl : ∀ c ∈ l, ctx.charToValue c ≠ BASE64_IGNORE) : data ctx l = l :=
  List.filter_eq_self.2 fun c hc => decide_eq_true (hl c hc)

theorem data_append (ctx : Context) (l l' : List char) : data ctx (l ++ l') = data ctx l ++ data ctx l' :=
  List.filter_append ..

theorem eq_nil_of_groups (hpre : pre.length % 3 = 0) (hshort : ∀ a b c l, pre = a :: b :: c :: l → False) :
    pre = [] := by
  rcases pre with _ | ⟨a, _ | ⟨b, _ | ⟨c, pre⟩⟩⟩
  · rfl
  · exact absurd hpre Nat.one_ne_zero
  · exact absurd hpre (Nat.succ_ne_zero 1)
  · exact (hshort _ _ _ _ rfl).elim

theorem encoded_append (hpre : pre.length % 3 = 0) (rest : List char) :
    encoded ctx (pre ++ rest) = quads ctx pre ++ encoded ctx rest := by
  induction pre using quads.induct with
  | case1 a b c pre ih =>
    show quad ctx a b c ++ encoded ctx (pre ++ rest) = quad ctx a b c ++ quads ctx pre ++ encoded ctx rest
    rw [ih ((Nat.add_mod_right _ 3).symm.trans hpre), List.append_assoc]
  | case2 pre hshort =>
    rw [eq_nil_of_groups hpre hshort]
    rfl

namespace Faithful
variable (h : Faithful ctx)
include h

theorem data_breakAt (linePos : ℤ) : data ctx (breakAt ctx linePos) = [] := by
  unfold breakAt
  split_ifs
  · exact List.filter_eq_nil_iff.2 fun c hc => by simp [h.separator c hc]
  · rfl

theorem data_quad (a b c : char) : data ctx (quad ctx a b c) = quad ctx a b c := by
  have hdecodes := h.decodes_encoded [a, b, c]
  rw [show encoded ctx [a, b, c] = quad ctx a b c from List.append_nil _] at hdecodes
  exact data_eq_self hdecodes.data

theorem data_lines (linePos : ℤ) (l : List char) : data ctx (lines ctx linePos l) = quads ctx l := by
  induction l using quads.induct generalizing linePos with
  | case1 a b c l ih =>
    rw [lines, quads, data_append, data_append, h.data_breakAt, h.data_quad, ih, List.nil_append]
  | case2 l hshort =>
    rw [lines_of_short hshort]
    unfold quads
    split
    · exact (hshort _ _ _ _ rfl).elim
    · rfl

end Faithful

theorem exists_leftover (src : List char) :
    ∃ pre rest, src = pre ++ rest ∧ pre.length % 3 = 0 ∧ rest.length < 3 := by
  refine ⟨src.take (src.length / 3 * 3), _, (List.take_append_drop _ src).symm, ?_, ?_⟩
  · rw [List.length_take]
    omega
  · rw [List.length_drop]
    omega

theorem leftover_eq (hpre : pre.length % 3 = 0) (hrest : rest.length < 3) :
    (pre ++ rest).length - (pre ++ rest).length / 3 * 3 = rest.length := by
  rw [List.length_append]
  omega

theorem encodeGroups_append (ctx : Context) (hpre : pre.length % 3 = 0) (l : List char) (s : Encoding) :
    encodeGroups ctx l (encodeGroups ctx pre s) = encodeGroups ctx (pre ++ l) s := by
  induction pre using quads.induct generalizing s with
  | case1 a b c pre ih =>
    rw [List.cons_append, List.cons_append, List.cons_append, encodeGroups, encodeGroups]
    exact ih ((Nat.add_mod_right _ 3).symm.trans hpre) _
  | case2 pre hshort =>
    rw [eq_nil_of_groups hpre hshort]
    rfl

/-- The loop over the whole groups and the one over `szPad` are one loop. -/
theorem encodeEx_eq (ctx : Context) (dest : Block char) (bPad : Bool) (hpre : pre.length % 3 = 0)
    (hrest : rest.length < 3) (hne : pre ++ rest ≠ []) :
    ∃ out, out = lines ctx 0 (pre ++ lastGroup (pre ++ rest)) ∧ encodeEx ctx (pre ++ rest) dest bPad =
      finish ctx bPad rest.length ((dest.storeAll 0 out).store out.length 0) out.length := by
  have hstart : Put dest [] (⟨dest, 0, 0⟩ : Encoding) := ⟨rfl, rfl⟩
  obtain ⟨hdest, hpDest⟩ := put_encodeGroups ctx hstart (pre ++ lastGroup (pre ++ rest))
  refine ⟨_, rfl, ?_⟩
  have hgroups : (pre ++ rest).length / 3 * 3 = pre.length := by
    rw [List.length_append]
    omega
  have hleftover := leftover_eq hpre hrest
  unfold encodeEx
  rw [if_neg (by rw [Nat.le_zero, List.length_eq_zero_iff]; exact hne)]
  dsimp only
  rw [hleftover, hgroups, List.take_left, encodeGroups_append ctx hpre, hdest, hpDest]
  rfl

theorem exists_lines_append (ctx : Context) (hpre : pre.length % 3 = 0) (linePos : ℤ) (l : List char) :
    ∃ linePos', lines ctx linePos (pre ++ l) = lines ctx linePos pre ++ lines ctx linePos' l := by
  induction pre using quads.induct generalizing linePos with
  | case1 a b c pre ih =>
    obtain ⟨linePos', heq⟩ := ih ((Nat.add_mod_right _ 3).symm.trans hpre) (nextPos ctx linePos)
    refine ⟨linePos', ?_⟩
    rw [List.cons_append, List.cons_append, List.cons_append, lines, lines, heq, List.append_assoc,
      List.append_assoc]
  | case2 pre hshort =>
    rw [eq_nil_of_groups hpre hshort]
    exact ⟨linePos, rfl⟩

theorem lastGroup_of_groups (hpre : pre.length % 3 = 0) : lastGroup (pre ++ []) = [] := by
  have hleftover : _ = List.length [] := leftover_eq hpre (Nat.zero_lt_succ 2)
  unfold lastGroup
  dsimp only
  rw [hleftover]
  rfl

/-- `szPad` has the bytes left over and zeros; of its four characters, those of the bytes are kept. -/
theorem lastGroup_of_leftover (ctx : Context) (hpre : pre.length % 3 = 0) (hrest : rest.length < 3)
    (hne : rest ≠ []) : ∃ a b c, lastGroup (pre ++ rest) = [a, b, c] ∧
      encoded ctx rest =
        (quad ctx a b c).take (rest.length + 1) ++ List.replicate (3 - rest.length) ctx.padCh := by
  have hleftover := leftover_eq hpre hrest
  unfold lastGroup
  dsimp only
  rw [hleftover]
  rcases rest with _ | ⟨a, _ | ⟨b, _ | ⟨c, l⟩⟩⟩
  · exact absurd rfl hne
  · exact ⟨a, 0, 0, by simp, rfl⟩
  · exact ⟨a, b, 0, by simp, rfl⟩
  · simp at hrest
    omega

/-- The padding is put over the last characters of the last group, or the text ends before them. -/
theorem holds_finish (ctx : Context) (bPad : Bool) (dest : Block char) (front : List char) (w x y z : char)
    {leftover : ℕ} (hpos : 0 < leftover) (hlt : leftover < 3) :
    Holds (finish ctx bPad leftover ((dest.storeAll 0 (front ++ [w, x, y, z])).store
        (front ++ [w, x, y, z]).length 0) (front ++ [w, x, y, z]).length)
      (front ++ ([w, x, y, z].take (leftover + 1) ++
        List.replicate (if bPad then 3 - leftover else 0) ctx.padCh)) := by
  have hlen : (front ++ [w, x, y, z]).length = front.length + 4 := List.length_append
  have hlast : ((front ++ [w, x, y, z]).length : ℤ) - 1 = (front.length + 3 : ℕ) := by omega
  have hsecond : ((front ++ [w, x, y, z]).length : ℤ) - 2 = (front.length + 2 : ℕ) := by omega
  have hall := holds_storeAll dest (front ++ [w, x, y, z])
  rcases bPad with _ | _
  · have hcut : ∀ i, (front ++ [w, x, y, z]).take (front.length + i) = front ++ ([w, x, y, z].take i ++ []) :=
      fun i => by rw [List.take_length_add_append, List.append_nil]
    rcases (by omega : leftover = 1 ∨ leftover = 2) with rfl | rfl
    · have hone := hall.cut (n := front.length + 2) (by omega)
      rw [hcut, ← hsecond] at hone
      exact hone
    · have hone := hall.cut (n := front.length + 3) (by omega)
      rw [hcut, ← hlast] at hone
      exact hone
  · have hset : ∀ (i : ℕ) (l : List char),
        (front ++ l).set (front.length + i) ctx.padCh = front ++ l.set i ctx.padCh := fun i l => by
      rw [List.set_append_right _ _ (Nat.le_add_right _ _), Nat.add_sub_cancel_left]
    have hone := hall.store (i := front.length + 3) (by omega) ctx.padCh
    rcases (by omega : leftover = 1 ∨ leftover = 2) with rfl | rfl
    · have htwo := hone.store (i := front.length + 2) (by rw [List.length_set]; omega) ctx.padCh
      rw [hset, hset, ← hlast, ← hsecond] at htwo
      exact htwo
    · rw [hset, ← hlast] at hone
      exact hone

theorem padLen_append (hpre : pre.length % 3 = 0) (hrest : rest.length < 3) (hnil : rest ≠ []) :
    padLen (pre ++ rest).length = 3 - rest.length := by
  have hpos := List.length_pos_iff.2 hnil
  unfold padLen
  rw [List.length_append]
  omega

/-- The encoder leaves the characters of `src`, with line breaks; without padding, if it is not asked for. -/
theorem holds_encodeEx (h : Faithful ctx) (src : List char) (bPad : Bool) (dest : Block char) :
    ∃ text, Holds (encodeEx ctx src dest bPad) text ∧
      data ctx text ++ List.replicate (if bPad then 0 else padLen src.length) ctx.padCh = encoded ctx src := by
  by_cases hne : src = []
  · subst hne
    exact ⟨[], holds_storeAll dest [], by rcases bPad with _ | _ <;> rfl⟩
  obtain ⟨pre, rest, rfl, hpre, hrest⟩ := exists_leftover src
  obtain ⟨out, hout, heq⟩ := encodeEx_eq ctx dest bPad hpre hrest hne
  rw [encoded_append hpre, heq]
  by_cases hnil : rest = []
  · subst hnil
    have hpad : padLen pre.length = 0 := by
      rw [padLen, hpre]
    refine ⟨out, holds_storeAll dest out, ?_⟩
    rw [hout, lastGroup_of_groups hpre, List.append_nil, h.data_lines, hpad, ite_self]
    rfl
  · obtain ⟨a, b, c, hlast, hencoded⟩ := lastGroup_of_leftover ctx hpre hrest hnil
    obtain ⟨linePos, hlines⟩ := exists_lines_append ctx hpre 0 [a, b, c]
    have hgroup : out = (lines ctx 0 pre ++ breakAt ctx linePos) ++ quad ctx a b c := by
      rw [hout, hlast, hlines, List.append_assoc]
      exact congrArg _ (congrArg _ (List.append_nil _))
    have hsplit : (quad ctx a b c).take (rest.length + 1) ++
        List.replicate (if bPad then 3 - rest.length else 0) ctx.padCh ++
          List.replicate (if bPad then 0 else 3 - rest.length) ctx.padCh = encoded ctx rest := by
      rw [hencoded]
      rcases bPad with _ | _
      · exact congrArg (· ++ _) (List.append_nil _)
      · exact List.append_nil _
    have hdata := (h.decodes_encoded rest).data
    rw [← hsplit] at hdata
    rw [hgroup]
    refine ⟨(lines ctx 0 pre ++ breakAt ctx linePos) ++ ((quad ctx a b c).take (rest.length + 1) ++
      List.replicate (if bPad then 3 - rest.length else 0) ctx.padCh),
      holds_finish ctx bPad dest _ _ _ _ _ (List.length_pos_iff.2 hnil) hrest, ?_⟩
    rw [data_append, data_append, h.data_lines, h.data_breakAt, List.append_nil,
      data_eq_self fun c hc => hdata c (List.mem_append_left _ hc), padLen_append hpre hrest hnil, List.append_assoc]
    exact congrArg _ hsplit

theorem Faithful.round_trip (h : Faithful ctx) (hdata : data ctx text = encoded ctx src) (dest : Block char) :
    Holds (decode ctx text dest) src := by
  obtain ⟨hbytes, hlength, hpads, -⟩ := h.decodes_encoded src
  have hlen : decodedLength ctx text = src.length := by
    unfold decodedLength
    rw [hdata, hlength, hpads, padLen]
    omega
  obtain ⟨hlen', htake, hzero⟩ := decode_take dest (by rw [hdata, hlength]; exact Nat.mul_mod_right 4 _) hlen
  refine ⟨hlen', ?_, hzero⟩
  rw [htake, hdata, hbytes, List.take_left]

end

/-- `base64_decode` gives back what `base64_encode_ex` has encoded, padded. -/
theorem decode_encodeEx {chPlus chSplash chPad : char} (h : Distinct chPlus chSplash chPad) (nLineLength : ℤ)
    {sep : List char}
    (hsep : ∀ c ∈ sep.take 15, ¬ IsAlphanumeric c ∧ c ≠ chPlus ∧ c ≠ chSplash ∧ c ≠ chPad)
    (src : List char) (dest dest' : Block char) :
    let ctx := setLineSeparator (initEx nLineLength chPlus chSplash chPad) sep
    ∃ text, Holds (encodeEx ctx src dest true) text ∧ Holds (decode ctx text dest') src := by
  have hfaithful := faithful_initEx h nLineLength hsep
  obtain ⟨text, htext, hdata⟩ := holds_encodeEx hfaithful src true dest
  exact ⟨text, htext, hfaithful.round_trip ((List.append_nil _).symm.trans hdata) dest'⟩

theorem decode_encodeEx_many :
    let ctx := setLineSeparator (initEx 4 43 47 61) [13, 10]
    ∃ text, Holds (encodeEx ctx [77, 97, 110, 121] (Block.malloc 16 fun _ => 9) true) text ∧
      Holds (decode ctx text (Block.malloc 8 fun _ => 9)) [77, 97, 110, 121] := by
  refine decode_encodeEx ⟨?_, ?_, ?_, by decide, by decide, by decide⟩ 4 ?_ _ _ _
  all_goals simp [IsAlphanumeric]

end CWorkspace.Base64
