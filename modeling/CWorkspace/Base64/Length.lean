import CWorkspace.Base64.RoundTrip

/-!
# How long an encoded text is

With the lines of `base64_set_line_length`, `base64_get_encode_length` is what the encoder writes, unless an `int`
overflows, so that a destination with one byte more has room for it (`encodeEx_fits`). `base64_decode_auto` adds
padding by that length, line breaks included, and so it gives back only the texts whose line breaks are a multiple of
four characters (`decodeAuto_encodeEx_iff`).
-/

namespace CWorkspace.Base64

section
variable {ctx : Context} {m k : ℕ}

/-! ### The line breaks -/

theorem groups_of_short {l : List char} (hshort : ∀ a b c l', l = a :: b :: c :: l' → False) :
    l.length / 3 = 0 := by
  rcases l with _ | ⟨a, _ | ⟨b, _ | ⟨c, l⟩⟩⟩
  · exact Nat.zero_div 3
  · exact Nat.div_eq_of_lt (Nat.succ_lt_succ (Nat.zero_lt_succ 1))
  · exact Nat.div_eq_of_lt (Nat.lt_succ_self 2)
  · exact (hshort _ _ _ _ rfl).elim

theorem length_quad (ctx : Context) (a b c : char) : (quad ctx a b c).length = 4 := rfl

theorem length_lines_zero (hzero : ctx.lineLength = 0) (linePos : ℤ) (l : List char) :
    (lines ctx linePos l).length = 4 * (l.length / 3) := by
  induction l using quads.induct generalizing linePos with
  | case1 a b c l ih =>
    have hbreak : breakAt ctx linePos = [] := if_neg fun h => h.2 hzero
    have hlen : (a :: b :: c :: l).length = l.length + 3 := rfl
    rw [lines, hbreak, List.nil_append, List.length_append, length_quad, ih, hlen]
    omega
  | case2 l hshort =>
    rw [lines_of_short hshort, groups_of_short hshort]
    rfl

/-- A line has `m` groups, and `k` of them are on the first line already. -/
theorem length_lines (hm : 0 < m) (hline : ctx.lineLength = 4 * m) (hk : k ≤ m) (l : List char) :
    (lines ctx (4 * k) l).length = 4 * (l.length / 3) + (k + l.length / 3 - 1) / m * ctx.lineSeparator.length := by
  induction l using quads.induct generalizing k with
  | case1 a b c l ih =>
    have hgroups : (a :: b :: c :: l).length / 3 = l.length / 3 + 1 := Nat.add_div_right _ (Nat.zero_lt_succ 2)
    rw [lines, List.length_append, List.length_append, length_quad, hgroups]
    unfold breakAt nextPos
    rcases Nat.lt_or_eq_of_le hk with hlt | rfl
    · have hroom : ¬ ctx.lineLength < 4 * (k : ℤ) + 4 := by omega
      have hnext : 4 * (k : ℤ) + 4 = 4 * ((k + 1 : ℕ) : ℤ) := by omega
      have hcount : k + 1 + l.length / 3 - 1 = k + (l.length / 3 + 1) - 1 := by omega
      rw [if_neg fun h => hroom h.1, if_neg hroom, hnext, ih hlt, hcount, List.length_nil]
      omega
    · have hfull : ctx.lineLength < 4 * (k : ℤ) + 4 := by omega
      have hnext : (4 : ℤ) = 4 * ((Nat.succ 0 : ℕ) : ℤ) := rfl
      have hcount : (k + (l.length / 3 + 1) - 1) / k = (Nat.succ 0 + l.length / 3 - 1) / k + 1 := by
        rw [← Nat.add_div_right _ hm]
        congr 1
        omega
      rw [if_pos ⟨hfull, by omega⟩, if_pos hfull, hnext, ih hm, hcount, Nat.add_mul, Nat.one_mul]
      omega
  | case2 l hshort =>
    rw [lines_of_short hshort, groups_of_short hshort, Nat.add_zero, Nat.div_eq_of_lt (by omega), Nat.zero_mul]
    rfl

def encodeLength (ctx : Context) (nSrcLen : ℕ) : ℤ :=
  let outputLength : ℤ := ((nSrcLen + 2) / 3 * 4 : ℕ)
  if ctx.lineLength ≠ 0 then
    let lines := (outputLength + ctx.lineLength - 1).tdiv ctx.lineLength - 1
    if 0 < lines then outputLength + lines * ctx.lineSeparator.length else outputLength
  else outputLength

theorem checked_eq_some {n m : ℤ} (h : checked n = some m) : m = n := by
  unfold checked at h
  split_ifs at h
  exact (Option.some.inj h).symm

theorem of_checked_bind {n m : ℤ} {f : ℤ → Option ℤ} (h : (checked n).bind f = some m) : f n = some m := by
  obtain ⟨_, hn, h⟩ := Option.bind_eq_some_iff.1 h
  rwa [checked_eq_some hn] at h

theorem eq_encodeLength {n : ℕ} {len : ℤ} (h : getEncodeLength ctx n = some len) : len = encodeLength ctx n := by
  have hdiv : ((n : ℤ) + 2).tdiv 3 * 4 = ((n + 2) / 3 * 4 : ℕ) := rfl
  unfold getEncodeLength at h
  simp only [Option.bind_eq_bind] at h
  have hsum := of_checked_bind h
  have hout := of_checked_bind hsum
  rw [hdiv] at hout
  unfold encodeLength
  dsimp only
  by_cases hline : ctx.lineLength ≠ 0
  · rw [if_pos hline] at hout ⊢
    have hlast := of_checked_bind hout
    have hnum := of_checked_bind hlast
    have hdiv := of_checked_bind hnum
    have hlines := of_checked_bind hdiv
    by_cases hmore : 0 < (((n + 2) / 3 * 4 : ℕ) + ctx.lineLength - 1).tdiv ctx.lineLength - 1
    · rw [if_pos hmore] at hlines ⊢
      have hbreaks := of_checked_bind hlines
      exact checked_eq_some hbreaks
    · rw [if_neg hmore] at hlines ⊢
      exact (Option.some.inj hlines).symm
  · rw [if_neg hline] at hout ⊢
    exact (Option.some.inj hout).symm

theorem encodeLength_of_zero (hzero : ctx.lineLength = 0) (n : ℕ) :
    encodeLength ctx n = (4 * ((n + 2) / 3) : ℕ) := by
  unfold encodeLength
  rw [if_neg (not_not.2 hzero), Nat.mul_comm]

theorem encodeLength_of_lines (hm : 0 < m) (hline : ctx.lineLength = 4 * m) (n : ℕ) :
    encodeLength ctx n =
      (4 * ((n + 2) / 3) + ((n + 2) / 3 - 1) / m * ctx.lineSeparator.length : ℕ) := by
  have hlines : (((n + 2) / 3 * 4 : ℕ) + ctx.lineLength - 1).tdiv ctx.lineLength =
      (((n + 2) / 3 + m - 1) / m : ℕ) := by
    obtain ⟨x, hx⟩ : ∃ x, (n + 2) / 3 + m = x + 1 := ⟨(n + 2) / 3 + m - 1, by omega⟩
    have hnum : (((n + 2) / 3 * 4 : ℕ) : ℤ) + ctx.lineLength - 1 = (4 * x + 3 : ℕ) := by omega
    rw [hnum, hline, hx, Nat.add_sub_cancel, show (4 * (m : ℤ)) = ((4 * m : ℕ) : ℤ) from rfl, ← Int.ofNat_tdiv,
      ← Nat.div_div_eq_div_mul]
    congr 2
    omega
  unfold encodeLength
  rw [if_pos (by omega)]
  dsimp only
  rw [hlines]
  rcases Nat.eq_zero_or_pos ((n + 2) / 3) with hzero | hpos
  · rw [hzero, Nat.zero_add, Nat.div_eq_of_lt (by omega), Nat.zero_sub, Nat.zero_div]
    simp
  · have hbreaks : ((n + 2) / 3 + m - 1) / m = ((n + 2) / 3 - 1) / m + 1 := by
      rw [← Nat.add_div_right _ hm]
      congr 1
      omega
    rw [hbreaks, Int.natCast_succ, Int.add_sub_cancel, Nat.mul_comm _ 4, Int.natCast_add, Int.natCast_mul (_ / m)]
    split_ifs with hmore
    · rfl
    · have hnone := Nat.eq_zero_of_not_pos fun hpos => hmore (Int.natCast_pos.2 hpos)
      rw [hnone, Int.natCast_zero, Int.zero_mul, Int.add_zero]

theorem length_setLineLength {length : ℤ} (hlength : 0 ≤ length) (ctx : Context) :
    ∃ m : ℕ, (setLineLength ctx length).lineLength = 4 * m := by
  obtain ⟨n, rfl⟩ := Int.eq_ofNat_of_zero_le hlength
  exact ⟨n / 4, Int.mul_comm _ _⟩

theorem le_encodeLength (hline : ctx.lineLength = 4 * m) (n : ℕ) :
    ((4 * ((n + 2) / 3) : ℕ) : ℤ) ≤ encodeLength ctx n := by
  rcases Nat.eq_zero_or_pos m with rfl | hm
  · exact Int.le_of_eq (encodeLength_of_zero hline n).symm
  · rw [encodeLength_of_lines hm hline]
    exact Int.ofNat_le.2 (Nat.le_add_right _ _)

theorem length_lines_eq (hline : ctx.lineLength = 4 * m) {l : List char} {n : ℕ} (hl : l.length / 3 = (n + 2) / 3) :
    ((lines ctx 0 l).length : ℤ) = encodeLength ctx n := by
  rcases Nat.eq_zero_or_pos m with rfl | hm
  · rw [length_lines_zero hline, encodeLength_of_zero hline, hl]
  · have hlen := length_lines hm hline (Nat.zero_le m) l
    rw [Nat.zero_add, hl] at hlen
    rw [encodeLength_of_lines hm hline, ← hlen]
    rfl

theorem groups_lastGroup (ctx : Context) {pre rest : List char} (hpre : pre.length % 3 = 0) (hrest : rest.length < 3) :
    (pre ++ lastGroup (pre ++ rest)).length / 3 = ((pre ++ rest).length + 2) / 3 := by
  by_cases hnil : rest = []
  · rw [hnil, lastGroup_of_groups hpre, List.append_nil]
    omega
  · obtain ⟨a, b, c, hlast, -⟩ := lastGroup_of_leftover ctx hpre hrest hnil
    have hpos := List.length_pos_iff.2 hnil
    rw [hlast, List.length_append, List.length_append]
    show (pre.length + 3) / 3 = _
    omega

theorem finish_length (ctx : Context) (bPad : Bool) {leftover n : ℕ} (hn : n % 3 = leftover) (dest : Block char)
    (pDest : ℤ) :
    (finish ctx bPad leftover dest pDest).2 = pDest - (if bPad then 0 else padLen n : ℕ) := by
  unfold finish padLen
  rcases (by omega : n % 3 = 0 ∨ n % 3 = 1 ∨ n % 3 = 2) with hmod | hmod | hmod <;> rw [← hn, hmod]
  · rcases bPad with _ | _ <;> exact (Int.sub_zero _).symm
  · rcases bPad with _ | _
    · rfl
    · exact (Int.sub_zero _).symm
  · rcases bPad with _ | _
    · rfl
    · exact (Int.sub_zero _).symm

theorem finish_safe (ctx : Context) (bPad : Bool) {leftover : ℕ} {dest : Block char} {pDest : ℤ} (h : dest.Safe)
    (hpos : leftover ≠ 0 → 4 ≤ pDest) (hsize : pDest < dest.size) :
    (finish ctx bPad leftover dest pDest).1.Safe := by
  unfold finish
  split_ifs
  · exact (h.store (by omega) _).store (by rw [Block.store_size]; omega) _
  · exact h.store (by omega) _
  · exact h.store (by omega) _
  · exact h.store (by omega) _
  · exact h

theorem storeAll_safe {dest : Block char} (h : dest.Safe) (out : List char) (hsize : out.length < dest.size) :
    ((dest.storeAll 0 out).store out.length 0).Safe := by
  have hpaint := Block.painted_storeAll dest 0 out 0
  exact (hpaint.safe h (Int.le_refl 0) (by omega)).store (by rw [hpaint.size]; omega) 0

theorem exists_out (hline : ctx.lineLength = 4 * m) {src : List char} (hne : src ≠ []) (bPad : Bool)
    (dest : Block char) : ∃ out : List char, (out.length : ℤ) = encodeLength ctx src.length ∧
      encodeEx ctx src dest bPad =
        finish ctx bPad (src.length % 3) ((dest.storeAll 0 out).store out.length 0) out.length := by
  obtain ⟨pre, rest, rfl, hpre, hrest⟩ := exists_leftover src
  obtain ⟨out, hout, heq⟩ := encodeEx_eq ctx dest bPad hpre hrest hne
  have hmod : (pre ++ rest).length % 3 = rest.length := by
    rw [List.length_append]
    omega
  refine ⟨out, ?_, by rw [heq, hmod]⟩
  rw [hout]
  exact length_lines_eq hline (groups_lastGroup ctx hpre hrest)

theorem encodeLength_nil (hline : ctx.lineLength = 4 * m) : encodeLength ctx 0 = 0 :=
  (length_lines_eq (l := []) hline rfl).symm

theorem length_encodeEx (hline : ctx.lineLength = 4 * m) (src : List char) (bPad : Bool) (dest : Block char) :
    (encodeEx ctx src dest bPad).2 =
      encodeLength ctx src.length - (if bPad then 0 else padLen src.length : ℕ) := by
  by_cases hne : src = []
  · subst hne
    rw [List.length_nil, encodeLength_nil hline]
    rcases bPad with _ | _ <;> rfl
  · obtain ⟨out, hlen, heq⟩ := exists_out hline hne bPad dest
    rw [heq, finish_length ctx bPad rfl, hlen]

theorem encodeEx_safe (hline : ctx.lineLength = 4 * m) (src : List char) (bPad : Bool) {dest : Block char}
    (hsafe : dest.Safe) (hsize : encodeLength ctx src.length < dest.size) :
    (encodeEx ctx src dest bPad).1.Safe := by
  have hle := le_encodeLength hline src.length
  by_cases hne : src = []
  · subst hne
    exact hsafe.store (by omega) 0
  · obtain ⟨out, hlen, heq⟩ := exists_out hline hne bPad dest
    have hpos := List.length_pos_iff.2 hne
    rw [heq]
    refine finish_safe ctx bPad (storeAll_safe hsafe out (by omega)) (fun _ => by omega) ?_
    rw [Block.store_size, (Block.painted_storeAll dest 0 out 0).size, hlen]
    exact hsize

end

/-- `base64_get_encode_length` is what is written, less the padding that is left away, and with one byte more in
`dest` every store is inside. -/
theorem encodeEx_fits {length : ℤ} (hlength : 0 ≤ length) (ctx : Context) (src : List char) (bPad : Bool) {n : ℤ}
    (hn : getEncodeLength (setLineLength ctx length) src.length = some n) {dest : Block char} (hsafe : dest.Safe)
    (hsize : n < dest.size) :
    (encodeEx (setLineLength ctx length) src dest bPad).2 = n - (if bPad then 0 else padLen src.length : ℕ) ∧
      (encodeEx (setLineLength ctx length) src dest bPad).1.Safe := by
  obtain ⟨m, hline⟩ := length_setLineLength hlength ctx
  have hlen := eq_encodeLength hn
  subst hlen
  exact ⟨length_encodeEx hline src bPad dest, encodeEx_safe hline src bPad hsafe hsize⟩

/-- Four bytes with padding: two lines of four characters with a line feed between them. -/
theorem encodeEx_fits_many :
    (encodeEx (setLineLength (init 0) 6) [77, 97, 110, 121] (Block.malloc 10 fun _ => 9) true).2 = 9 - 0 ∧
      (encodeEx (setLineLength (init 0) 6) [77, 97, 110, 121] (Block.malloc 10 fun _ => 9) true).1.Safe :=
  encodeEx_fits (by decide) (init 0) [77, 97, 110, 121] true rfl (Block.safe_malloc 10 _) (by decide)

/-! ### Decoding with padding added -/

section
variable {ctx : Context} {m : ℕ} {src text : List char}

theorem checked_of_le {n : ℕ} (h : (n : ℤ) ≤ INT_MAX) : checked n = some (n : ℤ) :=
  if_pos ⟨Int.le_trans (by decide) (Int.natCast_nonneg n), h⟩

theorem decodeAuto_eq (ctx : Context) (hroom : (text.length : ℤ) + 3 ≤ INT_MAX) (dest : Block char) :
    decodeAuto ctx text dest true =
      some (decode ctx (text ++ List.replicate ((4 - text.length % 4) % 4) ctx.padCh) dest) := by
  unfold decodeAuto
  dsimp only
  by_cases hzero : text.length % 4 = 0
  · rw [if_pos hzero, hzero]
    exact congrArg (fun l => some (decode ctx l dest)) (List.append_nil _).symm
  · have hpadLen : (4 - text.length % 4) % 4 = 4 - text.length % 4 := Nat.mod_eq_of_lt (by omega)
    have hnew := checked_of_le (n := text.length + (4 - text.length % 4)) (by omega)
    rw [Int.natCast_add] at hnew
    rw [if_neg hzero, hnew, Option.bind_eq_bind, Option.bind_some, if_neg (by simp), hpadLen]

/-- `base64_decode_auto` counts the line breaks with the characters, so it adds the right padding exactly if their
number is a multiple of four. -/
theorem Faithful.decodeAuto_iff (h : Faithful ctx) (hline : ctx.lineLength = 4 * m) {bPad : Bool} {dest : Block char}
    (htext : Holds (encodeEx ctx src dest bPad) text)
    (hdata : data ctx text ++ List.replicate (if bPad then 0 else padLen src.length) ctx.padCh = encoded ctx src)
    (hroom : encodeLength ctx src.length + 3 ≤ INT_MAX) (dest' : Block char) :
    ∃ out, decodeAuto ctx text dest' true = some out ∧ (Holds out src ↔ encodeLength ctx src.length % 4 = 0) := by
  have hlen := htext.length.symm.trans (length_encodeEx hline src bPad dest)
  have hgroups := congrArg List.length hdata
  rw [(h.decodes_encoded src).length, List.length_append, List.length_replicate] at hgroups
  have hpad : (if bPad then 0 else padLen src.length) < 3 := by
    unfold padLen
    split_ifs <;> omega
  have hadded : data ctx (text ++ List.replicate ((4 - text.length % 4) % 4) ctx.padCh) =
      data ctx text ++ List.replicate ((4 - text.length % 4) % 4) ctx.padCh := by
    have hpads : ∀ c ∈ List.replicate ((4 - text.length % 4) % 4) ctx.padCh,
        ctx.charToValue c ≠ BASE64_IGNORE := by
      intro c hc
      rw [List.eq_of_mem_replicate hc]
      exact h.pad_ne_ignore
    rw [data_append, data_eq_self hpads]
  generalize (if bPad then 0 else padLen src.length) = k at hlen hgroups hpad hdata
  refine ⟨_, decodeAuto_eq ctx (by omega) dest', ?_⟩
  constructor
  · intro hsrc
    by_contra hne
    have hshort : (data ctx (text ++ List.replicate ((4 - text.length % 4) % 4) ctx.padCh)).length % 4 ≠ 0 := by
      rw [hadded, List.length_append, List.length_replicate]
      omega
    rw [decode_eq, if_pos hshort] at hsrc
    have hnil : src = [] := List.length_eq_zero_iff.1 (Int.ofNat_eq_zero.1 hsrc.length.symm)
    rw [hnil, List.length_nil, encodeLength_nil hline] at hne
    exact hne rfl
  · intro hfour
    refine h.round_trip ?_ dest'
    rw [hadded, ← hdata, show (4 - text.length % 4) % 4 = k by omega]

end

theorem decodeAuto_encodeEx_iff {chPlus chSplash chPad : char} (h : Distinct chPlus chSplash chPad)
    {sep : List char}
    (hsep : ∀ c ∈ sep.take 15, ¬ IsAlphanumeric c ∧ c ≠ chPlus ∧ c ≠ chSplash ∧ c ≠ chPad)
    (nLineLength length : ℤ) (hlength : 0 ≤ length) (src : List char) (bPad : Bool) (dest dest' : Block char) :
    let ctx := setLineLength (setLineSeparator (initEx nLineLength chPlus chSplash chPad) sep) length
    ∀ n, getEncodeLength ctx src.length = some n → n + 3 ≤ INT_MAX →
      ∃ text, Holds (encodeEx ctx src dest bPad) text ∧
        ∃ out, decodeAuto ctx text dest' true = some out ∧ (Holds out src ↔ n % 4 = 0) := by
  intro ctx n hn hroom
  have hlen := eq_encodeLength hn
  subst hlen
  obtain ⟨hvalue, hpad, hseparator⟩ := faithful_initEx h nLineLength hsep
  obtain ⟨m, hline⟩ :=
    length_setLineLength hlength (setLineSeparator (initEx nLineLength chPlus chSplash chPad) sep)
  have hfaithful : Faithful ctx := ⟨hvalue, hpad, hseparator⟩
  obtain ⟨text, htext, hdata⟩ := holds_encodeEx hfaithful src bPad dest
  exact ⟨text, htext, hfaithful.decodeAuto_iff hline htext hdata hroom dest'⟩

/-- Four bytes in two lines: the line feed is a ninth character, and three of padding are added. -/
theorem decodeAuto_encodeEx_many :
    let ctx := setLineLength (setLineSeparator (initEx 0 43 47 61) [10]) 4
    ∃ text, Holds (encodeEx ctx [77, 97, 110, 121] (Block.malloc 10 fun _ => 9) true) text ∧
      ∃ out, decodeAuto ctx text (Block.malloc 8 fun _ => 9) true = some out ∧ ¬ Holds out [77, 97, 110, 121] := by
  have h : Distinct 43 47 61 := by
    refine ⟨?_, ?_, ?_, by decide, by decide, by decide⟩
    all_goals simp [IsAlphanumeric]
  have hsep : ∀ c ∈ [(10 : char)].take 15, ¬ IsAlphanumeric c ∧ c ≠ 43 ∧ c ≠ 47 ∧ c ≠ 61 := by
    simp [IsAlphanumeric]
  obtain ⟨text, htext, out, hout, hiff⟩ := decodeAuto_encodeEx_iff h hsep 0 4 (by decide)
    [77, 97, 110, 121] true (Block.malloc 10 fun _ => 9) (Block.malloc 8 fun _ => 9) 9 rfl (by decide)
  exact ⟨text, htext, out, hout, fun hsrc => absurd (hiff.1 hsrc) (by decide)⟩

end CWorkspace.Base64
