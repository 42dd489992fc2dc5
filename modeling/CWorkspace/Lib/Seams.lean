import CWorkspace.Lib.Rewrite
import Mathlib.Logic.Relation
import Mathlib.Tactic.Ring

/-!
# When rewriting settles

A replacement can only make new occurrences of the pattern across its seams: across the left one if a
beginning of it ends the pattern (`LeftSeam`), across the right one if an end of it begins the pattern
(`RightSeam`). Unless both happen rewriting settles, and it settles if the replacement is shorter, as long
but different, or has too few of some element. What is left is `Tangled`; then it depends on the text, and
the order of the replacements does not matter as long as occurrences do not overlap (`settles_iff`). Without
seams rewriting is one pass over the text (`rewrites_onePass`).
-/

namespace CWorkspace

variable {α : Type*}

/-- No occurrence of the pattern begins in `w`, whatever follows. -/
def Inert (pat w : List α) : Prop := ∀ z, pat <:+: w ++ z → pat <:+: z

namespace Inert
variable {pat rep w w' : List α}

theorem append (h : Inert pat w) (h' : Inert pat w') : Inert pat (w ++ w') := fun z hz =>
  h' z (h (w' ++ z) (by rwa [List.append_assoc] at hz))

theorem rewrites (h : Inert pat w) {z r : List α} (hr : Rewrites pat rep z r) :
    Rewrites pat rep (w ++ z) (w ++ r) := by
  induction hr with
  | done hfree => exact .done fun hin => hfree (h _ hin)
  | @step x y r hx _ ih =>
    have hwx : First pat (w ++ x) := fun hin => hx (h _ (by rwa [List.append_assoc] at hin))
    have := Rewrites.step (y := y) (r := w ++ r) hwx (by simpa using ih)
    simpa using this

end Inert

/-- A beginning of the replacement is an end of the pattern. -/
def LeftSeam (pat rep : List α) : Prop := ∃ u, u ≠ [] ∧ u <+: rep ∧ u <:+ pat

/-- An end of the replacement is a beginning of the pattern. -/
def RightSeam (pat rep : List α) : Prop := ∃ u, u ≠ [] ∧ u <:+ rep ∧ u <+: pat

instance [DecidableEq α] (pat rep : List α) : Decidable (LeftSeam pat rep) :=
  decidable_of_iff (∃ u ∈ rep.inits, u ≠ [] ∧ u <:+ pat) (exists_congr fun u => by
    rw [List.mem_inits]; exact and_left_comm)

instance [DecidableEq α] (pat rep : List α) : Decidable (RightSeam pat rep) :=
  decidable_of_iff (∃ u ∈ rep.tails, u ≠ [] ∧ u <+: pat) (exists_congr fun u => by
    rw [List.mem_tails]; exact and_left_comm)

section
variable {pat rep x : List α}

theorem not_infix_append (hx : ¬ pat <:+: x) (hrep : ¬ pat <:+: rep) (h : ¬ LeftSeam pat rep) :
    ¬ pat <:+: x ++ rep := by
  intro hin
  rcases List.infix_append_iff_ne_nil.1 hin with hin | hin | ⟨p, q, -, hq, rfl, -, hpre⟩
  exacts [hx hin, hrep hin, h ⟨q, hq, hpre, List.suffix_append _ _⟩]

theorem inert_of_not_rightSeam (hrep : ¬ pat <:+: rep) (h : ¬ RightSeam pat rep) : Inert pat rep := by
  intro z hz
  rcases List.infix_append_iff_ne_nil.1 hz with hin | hin | ⟨p, q, hp, -, rfl, hsuf, -⟩
  exacts [absurd hin hrep, hin, absurd ⟨p, hp, hsuf, List.prefix_append _ _⟩ h]

theorem inert_append (hfree : ¬ pat <:+: x ++ rep) (h : ¬ RightSeam pat rep) (hin : ¬ rep <:+: pat) :
    Inert pat (x ++ rep) := by
  intro z hz
  rcases List.infix_append_iff_ne_nil.1 hz with hz | hz | ⟨p, q, hp, -, rfl, hsuf, -⟩
  · exact absurd hz hfree
  · exact hz
  · rcases List.suffix_or_suffix_of_suffix hsuf (List.suffix_append x rep) with hp' | hp'
    · exact absurd ⟨p, hp, hp', List.prefix_append _ _⟩ h
    · exact absurd (hp'.isInfix.trans (List.prefix_append _ _).isInfix) hin

end

/-! ### One seam at most -/

/-- Without a left seam the text before the next occurrence grows. -/
theorem settles_of_not_leftSeam {pat rep : List α} (hne : pat ≠ []) (hrep : ¬ pat <:+: rep)
    (h : ¬ LeftSeam pat rep) (s : List α) : Settles pat rep s := by
  have hafter : ∀ n x y, y.length = n → First pat x → Settles pat rep (x ++ rep ++ y) := by
    intro n
    induction n using Nat.strong_induction_on with
    | _ n ih =>
      intro x y hn hx
      by_cases hin : pat <:+: x ++ rep ++ y
      · obtain ⟨x', y', heq, hx'⟩ := exists_first hne hin
        have hfree := not_infix_append hx.not_infix hrep h
        have hlt : (x ++ rep).length < (x' ++ pat).length := by
          refine Nat.lt_of_not_le fun hle => hfree ?_
          have hpre := List.prefix_of_prefix_length_le (⟨y', heq.symm⟩ : x' ++ pat <+: x ++ rep ++ y)
            (List.prefix_append _ _) hle
          exact (List.suffix_append x' pat).isInfix.trans hpre.isInfix
        have hlen := congrArg List.length heq
        rw [List.length_append, @List.length_append _ (x' ++ pat)] at hlen
        obtain ⟨r, hr⟩ := ih y'.length (by omega) x' y' rfl hx'
        exact ⟨r, heq ▸ .step hx' hr⟩
      · exact ⟨_, .done hin⟩
  by_cases hs : pat <:+: s
  · obtain ⟨x, y, rfl, hx⟩ := exists_first hne hs
    obtain ⟨r, hr⟩ := hafter y.length x y rfl hx
    exact ⟨r, .step hx hr⟩
  · exact ⟨s, .done hs⟩

/-- Without a right seam a replacement is done with all that is left of it, in a text in which no
occurrence begins. -/
theorem rewrites_left {pat rep : List α} (hne : pat ≠ []) (hrep : ¬ pat <:+: rep)
    (h : ¬ RightSeam pat rep) (hin : ¬ rep <:+: pat) {x : List α} (hx : ¬ pat <:+: x) :
    ∃ w, Inert pat w ∧ ∀ z r, Rewrites pat rep z r → Rewrites pat rep (x ++ rep ++ z) (w ++ r) := by
  induction hn : x.length using Nat.strong_induction_on generalizing x with
  | _ n ih =>
    by_cases hocc : pat <:+: x ++ rep
    · obtain ⟨x', v, heq, hx'⟩ := exists_first hne hocc
      rw [List.append_assoc] at heq
      -- the occurrence begins in `x` and ends in `rep`
      rcases List.append_eq_append_iff.1 heq with ⟨e, -, he⟩ | ⟨e, rfl, he⟩
      · exact absurd ⟨e, v, by rw [he, List.append_assoc]⟩ hrep
      have hepos : e ≠ [] := by
        rintro rfl
        rw [List.nil_append] at he
        exact hrep ⟨[], v, by rw [List.nil_append]; exact he⟩
      have hlt : x'.length < n := by
        have := List.length_pos_of_ne_nil hepos
        rw [List.length_append] at hn
        omega
      have hv : v <:+ rep := by
        rcases List.append_eq_append_iff.1 he with ⟨e', rfl, -⟩ | ⟨e', -, rfl⟩
        · exact absurd ⟨x', e', by simp⟩ hx
        · exact List.suffix_append _ _
      have hinert : Inert pat v := inert_of_not_rightSeam (fun hpv => hrep (hpv.trans hv.isInfix))
        fun ⟨u, hu, huv, hup⟩ => h ⟨u, hu, huv.trans hv, hup⟩
      obtain ⟨w, hw, hrew⟩ := ih x'.length hlt hx'.not_infix rfl
      refine ⟨w ++ v, hw.append hinert, fun z r hz => ?_⟩
      have hstep := Rewrites.step (y := v ++ z) hx' (hrew (v ++ z) (v ++ r) (hinert.rewrites hz))
      rw [List.append_assoc w, show x' ++ e ++ rep ++ z = x' ++ pat ++ (v ++ z) by
        rw [List.append_assoc x', ← he]; simp]
      exact hstep
    · refine ⟨x ++ rep, inert_append hocc h hin, fun z r hz => ?_⟩
      exact (inert_append hocc h hin).rewrites hz

theorem settles_of_not_rightSeam {pat rep : List α} (hne : pat ≠ []) (hrep : ¬ pat <:+: rep)
    (h : ¬ RightSeam pat rep) (s : List α) : Settles pat rep s := by
  by_cases hin : rep <:+: pat
  · refine settles_of_length (lt_of_le_of_ne hin.length_le fun hlen => hrep ?_) s
    rw [hin.eq_of_length hlen]
  induction hn : s.length using Nat.strong_induction_on generalizing s with
  | _ n ih =>
    by_cases hs : pat <:+: s
    · obtain ⟨x, y, rfl, hx⟩ := exists_first hne hs
      have hpos := List.length_pos_of_ne_nil hne
      obtain ⟨r, hr⟩ := ih y.length (by simp only [List.length_append] at hn; omega) y rfl
      obtain ⟨w, -, hrew⟩ := rewrites_left hne hrep h hin hx.not_infix
      exact ⟨w ++ r, .step hx (hrew y r hr)⟩
    · exact ⟨s, .done hs⟩

theorem settles_of_fence {pat rep : List α} (hne : pat ≠ []) (h : Fence pat rep) (s : List α) :
    Settles pat rep s := by
  refine settles_of_not_leftSeam hne h.free ?_ s
  rintro ⟨u, hu, hpre, hsuf⟩
  obtain ⟨d, u, rfl⟩ := List.exists_cons_of_ne_nil hu
  obtain ⟨z, rfl⟩ := hpre
  exact h.head d rfl (hsuf.subset List.mem_cons_self)

/-- A replacement in which, after a part without the pattern, comes a separator and then nothing a pattern
can begin with. -/
theorem settles_of_separator {f u w : List α} {c d : α} (hd : d ∉ c :: f) (hu : ¬ c :: f <:+: u) (hw : c ∉ w)
    (s : List α) : Settles (c :: f) (u ++ d :: w) s := by
  have hrep : ¬ c :: f <:+: u ++ d :: w := by
    rw [infix_append_cons hd, not_or]
    exact ⟨hu, fun hin => hw (hin.subset List.mem_cons_self)⟩
  refine settles_of_not_rightSeam (List.cons_ne_nil _ _) hrep ?_ s
  rintro ⟨v, hv, hsuf, hpre⟩
  obtain ⟨c', v, rfl⟩ := List.exists_cons_of_ne_nil hv
  obtain ⟨rfl, -⟩ := List.cons_prefix_cons.1 hpre
  rcases List.suffix_or_suffix_of_suffix hsuf (List.suffix_append u (d :: w)) with h | h
  · rcases List.suffix_cons_iff.1 h with heq | h
    · obtain ⟨rfl, -⟩ := List.cons.inj heq
      exact hd List.mem_cons_self
    · exact hw (h.subset List.mem_cons_self)
  · exact hd (hpre.subset (h.subset List.mem_cons_self))

theorem fence_flatten {pat : List α} {d d' : α} (hd : d ∉ pat) (hd' : d' ∉ pat) {ws : List (List α)}
    (hws : ws ≠ []) (hhead : ∀ w ∈ ws, w.head? = some d) (hlast : ∀ w ∈ ws, w.getLast? = some d')
    (hfree : ¬ pat <:+: ws.flatten) : Fence pat ws.flatten := by
  obtain ⟨v, vs, hv⟩ := List.exists_cons_of_ne_nil hws
  have hv' : v.head? = some d := hhead v (by rw [hv]; exact List.mem_cons_self)
  have hvne : v ≠ [] := by rintro rfl; cases hv'
  rcases List.eq_nil_or_concat' ws with rfl | ⟨us, w, hu⟩
  · exact absurd rfl hws
  have hw : w.getLast? = some d' := hlast w (by rw [hu]; simp)
  have hwne : w ≠ [] := by rintro rfl; cases hw
  have hend : ws.flatten = us.flatten ++ w := by rw [hu]; simp
  refine ⟨?_, fun e he => ?_, fun e he => ?_, hfree⟩
  · rw [hend]; exact List.append_ne_nil_of_right_ne_nil _ hwne
  · rw [hv, List.flatten_cons, List.head?_append_of_ne_nil _ hvne, hv'] at he
    obtain rfl := Option.some.inj he
    exact hd
  · rw [hend, List.getLast?_append_of_ne_nil _ hwne, hw] at he
    obtain rfl := Option.some.inj he
    exact hd'

/-- Replacing by texts that begin and end with separators ends: there are none, or they are a fence. -/
theorem settles_flatten {pat : List α} (hne : pat ≠ []) {d d' : α} (hd : d ∉ pat) (hd' : d' ∉ pat)
    {ws : List (List α)} (hhead : ∀ w ∈ ws, w.head? = some d) (hlast : ∀ w ∈ ws, w.getLast? = some d')
    (hfree : ∀ w ∈ ws, ¬ pat <:+: w) (s : List α) : Settles pat ws.flatten s := by
  by_cases hws : ws = []
  · rw [hws]
    exact settles_of_length (by simpa using List.length_pos_of_ne_nil hne) s
  · refine settles_of_fence hne (fence_flatten hd hd' hws hhead hlast ?_) s
    rw [infix_flatten hne hd hhead]
    rintro ⟨w, hw, hin⟩
    exact hfree w hw hin

section
variable [DecidableEq α] (d : α)

def digits : List α → ℕ
  | [] => 0
  | c :: s => (if c = d then 2 ^ s.length else 0) + digits s

theorem digits_append (u v : List α) : digits d (u ++ v) = digits d u * 2 ^ v.length + digits d v := by
  induction u with
  | nil => simp [digits]
  | cons c u ih =>
    rw [List.cons_append, digits, digits, ih, List.length_append, pow_add]
    split_ifs <;> ring

theorem digits_lt (u : List α) : digits d u < 2 ^ u.length := by
  induction u with
  | nil => simp [digits]
  | cons c u ih =>
    rw [digits, List.length_cons, pow_succ]
    split_ifs <;> omega

end

theorem exists_ne_at {pat rep : List α} (hlen : rep.length = pat.length) (hne : rep ≠ pat) :
    ∃ u d v e w, pat = u ++ d :: v ∧ rep = u ++ e :: w ∧ e ≠ d := by
  induction pat generalizing rep with
  | nil => exact absurd (List.length_eq_zero_iff.1 hlen) hne
  | cons d v ih =>
    obtain ⟨e, w, rfl⟩ := List.exists_of_length_succ _ hlen
    by_cases he : e = d
    · subst he
      obtain ⟨u, d', v', e', w', rfl, rfl, hd⟩ := ih (Nat.succ.inj hlen) fun h => hne (by rw [h])
      exact ⟨e :: u, d', v', e', w', rfl, rfl, hd⟩
    · exact ⟨[], d, v, e, w, rfl, rfl, he⟩

/-- The number whose digits tell where that element of the pattern stands gets smaller. -/
theorem settles_of_length_eq {pat rep : List α} (hlen : rep.length = pat.length) (hne : rep ≠ pat)
    (s : List α) : Settles pat rep s := by
  classical
  obtain ⟨u, d, v, e, w, rfl, rfl, hd⟩ := exists_ne_at hlen hne
  have hvw : w.length = v.length := by simpa using hlen
  refine settles_of_measure (by simp) (digits d) (fun x y => ?_) s
  have hlt : digits d (u ++ e :: w) < digits d (u ++ d :: v) := by
    rw [digits_append, digits_append, digits, digits, if_neg hd, if_pos rfl, List.length_cons,
      List.length_cons, hvw]
    have := digits_lt d w
    rw [hvw] at this
    omega
  rw [digits_append, digits_append d (x ++ (u ++ d :: v)), digits_append, digits_append d x, hlen]
  have := Nat.mul_lt_mul_of_pos_right hlt (Nat.two_pow_pos y.length)
  rw [add_mul, add_mul]
  omega

/-- The replacement is longer than the pattern, has of everything at least as much, and seams on both sides. -/
structure Tangled [DecidableEq α] (pat rep : List α) : Prop where
  longer : pat.length < rep.length
  enough : ∀ c ∈ pat, pat.count c ≤ rep.count c
  left : LeftSeam pat rep
  right : RightSeam pat rep

theorem settles_of_not_tangled [DecidableEq α] {pat rep : List α} (hne : pat ≠ []) (hrep : ¬ pat <:+: rep)
    (h : ¬ Tangled pat rep) (s : List α) : Settles pat rep s := by
  rcases lt_trichotomy rep.length pat.length with hlt | heq | hgt
  · exact settles_of_length hlt s
  · exact settles_of_length_eq heq (fun hsame => hrep (hsame ▸ List.infix_rfl)) s
  by_cases hcount : ∀ c ∈ pat, pat.count c ≤ rep.count c
  · by_cases hleft : LeftSeam pat rep
    · exact settles_of_not_rightSeam hne hrep (fun hright => h ⟨hgt, hcount, hleft, hright⟩) s
    · exact settles_of_not_leftSeam hne hrep hleft s
  · push Not at hcount
    obtain ⟨c, -, hc⟩ := hcount
    refine settles_of_measure hne (List.count c) (fun x y => ?_) s
    rw [List.count_append, List.count_append, List.count_append, List.count_append]
    omega

/-! ### Replacing in any order -/

/-- A beginning of the pattern, not all of it, is its end: two occurrences can overlap. -/
def SelfOverlaps (pat : List α) : Prop := ∃ u, u ≠ [] ∧ u ≠ pat ∧ u <+: pat ∧ u <:+ pat

/-- Replacing one occurrence; if occurrences can overlap, the first. -/
inductive Replaces (pat rep : List α) : List α → List α → Prop
  | mk (x y : List α) (h : SelfOverlaps pat → First pat x) : Replaces pat rep (x ++ pat ++ y) (x ++ rep ++ y)

theorem occurrences_cases {pat x y x' y' : List α} (hpat : ¬ SelfOverlaps pat) (hlen : x.length ≤ x'.length)
    (h : x ++ pat ++ y = x' ++ pat ++ y') :
    (x = x' ∧ y = y') ∨ ∃ m, x' = x ++ pat ++ m ∧ y = m ++ pat ++ y' := by
  rw [List.append_assoc, List.append_assoc] at h
  obtain ⟨e, rfl, he⟩ : ∃ e, x' = x ++ e ∧ pat ++ y = e ++ (pat ++ y') := by
    rcases List.append_eq_append_iff.1 h with ⟨e, hx', he⟩ | ⟨e, hx, he⟩
    · exact ⟨e, hx', he⟩
    · have : e = [] := List.length_eq_zero_iff.1 (by rw [hx, List.length_append] at hlen; omega)
      subst this
      exact ⟨[], by simpa using hx.symm, by simpa using he.symm⟩
  rcases List.append_eq_append_iff.1 he with ⟨m, rfl, hy⟩ | ⟨o, hpo, ho⟩
  · exact .inr ⟨m, by simp, by rw [hy, List.append_assoc]⟩
  · -- they overlap in `o`, so that is nothing or all of the pattern
    have hpre : o <+: pat := by
      have hle : o.length ≤ pat.length := by
        have := congrArg List.length hpo
        rw [List.length_append] at this
        omega
      exact List.prefix_of_prefix_length_le ⟨y, ho.symm⟩ (List.prefix_append _ _) hle
    have hsuf : o <:+ pat := ⟨e, hpo.symm⟩
    by_cases ho0 : o = []
    · subst ho0
      rw [List.append_nil] at hpo
      rw [List.nil_append] at ho
      subst hpo
      exact .inr ⟨[], by simp, by rw [List.nil_append]; exact ho.symm⟩
    · by_cases hall : o = pat
      · subst hall
        have he0 : e = [] := by simpa using hpo
        subst he0
        exact .inl ⟨by simp, (List.append_cancel_left ho).symm⟩
      · exact absurd ⟨o, ho0, hall, hpre, hsuf⟩ hpat

theorem Replaces.diamond {pat rep a b c : List α} (hb : Replaces pat rep a b) (hc : Replaces pat rep a c) :
    b = c ∨ ∃ d, Replaces pat rep b d ∧ Replaces pat rep c d := by
  obtain ⟨x, y, hx⟩ := hb
  generalize ha : x ++ pat ++ y = a at hc
  obtain ⟨x', y', hx'⟩ := hc
  by_cases hpat : SelfOverlaps pat
  · obtain ⟨rfl, rfl⟩ := (hx hpat).unique (hx' hpat) ha
    exact .inl rfl
  have hcommute : ∀ {x m z : List α}, ∃ d, Replaces pat rep (x ++ rep ++ (m ++ pat ++ z)) d ∧
      Replaces pat rep (x ++ pat ++ m ++ rep ++ z) d := by
    intro x m z
    refine ⟨x ++ rep ++ (m ++ rep ++ z), ?_, ?_⟩
    · have := @Replaces.mk _ pat rep (x ++ rep ++ m) z fun h => absurd h hpat
      simpa using this
    · have := @Replaces.mk _ pat rep x (m ++ rep ++ z) fun h => absurd h hpat
      simpa using this
  rcases Nat.le_total x.length x'.length with hle | hle
  · rcases occurrences_cases hpat hle ha with ⟨rfl, rfl⟩ | ⟨m, rfl, rfl⟩
    · exact .inl rfl
    · exact .inr hcommute
  · rcases occurrences_cases hpat hle ha.symm with ⟨rfl, rfl⟩ | ⟨m, rfl, rfl⟩
    · exact .inl rfl
    · obtain ⟨d, h1, h2⟩ := hcommute (x := x') (m := m) (z := y)
      exact .inr ⟨d, h2, h1⟩

/-- If any two steps from one place meet after one more step, one run that ends is enough for all to end. -/
theorem acc_of_diamond {r : α → α → Prop} (hr : ∀ a b c, r a b → r a c → b = c ∨ ∃ d, r b d ∧ r c d) {b : α}
    (hb : Acc (fun x y => r y x) b) (a : α) (hab : r a b) : Acc (fun x y => r y x) a := by
  induction hb generalizing a with
  | intro b hb ih =>
    refine ⟨a, fun c hac => ?_⟩
    rcases hr a b c hab hac with rfl | ⟨d, hbd, hcd⟩
    · exact ⟨b, hb⟩
    · exact ih d hbd c hcd

/-- Rewriting settles if some replacements, in whatever order, end with a text without the pattern. -/
theorem settles_iff_replaces {pat rep s : List α} (hne : pat ≠ []) : Settles pat rep s ↔
    ∃ r, Relation.ReflTransGen (Replaces pat rep) s r ∧ ¬ pat <:+: r := by
  constructor
  · rintro ⟨r, hr⟩
    refine ⟨r, ?_, hr.free⟩
    induction hr with
    | done => exact .refl
    | @step x y r hx _ ih => exact .head (.mk x y fun _ => hx) ih
  · rintro ⟨r, hr, hfree⟩
    have hacc : Acc (fun x y => Replaces pat rep y x) s := by
      induction hr using Relation.ReflTransGen.head_induction_on with
      | refl =>
        refine ⟨r, fun t ht => ?_⟩
        generalize hr : r = r' at ht
        obtain ⟨x, y, -⟩ := ht
        exact absurd ⟨x, y, hr.symm⟩ hfree
      | head hab _ ih => exact acc_of_diamond (fun _ _ _ => Replaces.diamond) ih _ hab
    clear hr
    induction hacc with
    | intro s _ ih =>
      by_cases hs : pat <:+: s
      · obtain ⟨x, y, rfl, hx⟩ := exists_first hne hs
        obtain ⟨r', hr'⟩ := ih _ (.mk x y fun _ => hx)
        exact ⟨r', .step hx hr'⟩
      · exact ⟨s, .done hs⟩

def Ends [DecidableEq α] (pat rep s : List α) : Prop :=
  pat ≠ [] ∧ (pat <:+: s → ¬ pat <:+: rep ∧
    (Tangled pat rep → ∃ r, Relation.ReflTransGen (Replaces pat rep) s r ∧ ¬ pat <:+: r))

theorem settles_iff [DecidableEq α] {pat rep s : List α} : Settles pat rep s ↔ Ends pat rep s := by
  constructor
  · rintro ⟨r, hr⟩
    refine ⟨hr.ne_nil, fun hs => ⟨fun hrep => hr.not_infix hrep hs, fun _ => ?_⟩⟩
    exact (settles_iff_replaces hr.ne_nil).1 ⟨r, hr⟩
  · rintro ⟨hne, h⟩
    by_cases hs : pat <:+: s
    · obtain ⟨hrep, htangled⟩ := h hs
      by_cases ht : Tangled pat rep
      · exact (settles_iff_replaces hne).2 (htangled ht)
      · exact settles_of_not_tangled hne hrep ht s
    · exact ⟨s, .done hs⟩

/-! ### One pass -/

/-- One pass from left to right: past the next `skip` elements, then each occurrence that comes becomes the
replacement. -/
def onePassFrom [DecidableEq α] (pat rep : List α) : ℕ → List α → List α
  | _, [] => []
  | skip + 1, _ :: s => onePassFrom pat rep skip s
  | 0, a :: s => if pat <+: a :: s then rep ++ onePassFrom pat rep (pat.length - 1) s
    else a :: onePassFrom pat rep 0 s

/-- The leftmost occurrences that do not overlap, replaced from left to right. -/
def onePass [DecidableEq α] (pat rep s : List α) : List α := onePassFrom pat rep 0 s

section
variable [DecidableEq α] {pat rep : List α}

theorem onePassFrom_append (p y : List α) : onePassFrom pat rep p.length (p ++ y) = onePass pat rep y := by
  induction p with
  | nil => rfl
  | cons a p ih => exact ih

theorem onePass_of_free {s : List α} (hs : ¬ pat <:+: s) : onePass pat rep s = s := by
  induction s with
  | nil => rfl
  | cons a s ih =>
    rw [List.infix_cons_iff, not_or] at hs
    rw [onePass, onePassFrom, if_neg hs.1]
    exact congrArg (a :: ·) (ih hs.2)

theorem onePass_first {x : List α} (hx : First pat x) (y : List α) :
    onePass pat rep (x ++ pat ++ y) = x ++ rep ++ onePass pat rep y := by
  induction x with
  | nil =>
    obtain ⟨a, p, rfl⟩ := List.exists_cons_of_ne_nil hx.ne_nil
    rw [List.nil_append, List.nil_append, List.cons_append, onePass, onePassFrom,
      if_pos (by rw [← List.cons_append]; exact List.prefix_append _ _), List.length_cons, Nat.add_sub_cancel,
      onePassFrom_append]
  | cons a x ih =>
    have hpre : ¬ pat <+: a :: (x ++ pat ++ y) := by
      have := hx.not_prefix_drop y (i := 0) (by simp)
      rwa [List.drop_zero, List.cons_append, List.cons_append] at this
    have hx' : First pat x := fun hin => hx (by rw [List.cons_append]; exact List.infix_cons hin)
    rw [List.cons_append, List.cons_append, onePass, onePassFrom, if_neg hpre]
    exact congrArg (a :: ·) (ih hx')

/-- Without seams each replacement stays as it is, and rewriting is one pass. -/
theorem rewrites_onePass (hrep : ¬ pat <:+: rep) (hin : ¬ rep <:+: pat) (hleft : ¬ LeftSeam pat rep)
    (hright : ¬ RightSeam pat rep) (s : List α) : Rewrites pat rep s (onePass pat rep s) := by
  have hne : pat ≠ [] := by rintro rfl; exact hrep List.nil_infix
  induction hn : s.length using Nat.strong_induction_on generalizing s with
  | _ n ih =>
    by_cases hs : pat <:+: s
    · obtain ⟨x, y, rfl, hx⟩ := exists_first hne hs
      have hpos := List.length_pos_of_ne_nil hne
      have hy := ih y.length (by simp only [List.length_append] at hn; omega) y rfl
      rw [onePass_first hx]
      exact .step hx ((inert_append (not_infix_append hx.not_infix hrep hleft) hright hin).rewrites hy)
    · rw [onePass_of_free hs]
      exact .done hs

end

end CWorkspace
