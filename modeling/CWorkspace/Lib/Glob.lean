import CWorkspace.Lib.Paths
import Mathlib.Data.List.Dedup

/-!
# Pathname expansion

What the paths have that fit a pattern: the last character, when that stands for itself, and, where they are
longer than the pattern, a place at which any text can be put in (`exists_insert`). `Tree` is a directory with
all that is below it, which the shell puts in for the words that are patterns.
-/

namespace CWorkspace.Shell

theorem element_suffix {text rest : List Char} {c : Char} (h : element text = some (c, rest)) :
    rest <:+ text := by
  unfold element at h
  split at h
  · cases h
  · obtain ⟨-, rfl⟩ := Prod.mk.inj (Option.some.inj h)
    exact ⟨['\\', _], rfl⟩
  · obtain ⟨-, rfl⟩ := Prod.mk.inj (Option.some.inj h)
    exact ⟨['[', '=', _, '=', ']'], rfl⟩
  · obtain ⟨-, rfl⟩ := Prod.mk.inj (Option.some.inj h)
    exact ⟨['[', '.', _, '.', ']'], rfl⟩
  · obtain ⟨-, rfl⟩ := Prod.mk.inj (Option.some.inj h)
    exact List.suffix_cons _ _

theorem memberOf_suffix {text rest : List Char} {member : Char → Bool} (h : memberOf text = some (member, rest)) :
    rest <:+ text := by
  unfold memberOf at h
  dsimp only at h
  split at h
  · obtain ⟨-, rfl⟩ := Prod.mk.inj (Option.some.inj h)
    exact List.drop_suffix _ _
  · obtain ⟨⟨lo, mid⟩, hlo, h⟩ := Option.bind_eq_some_iff.1 h
    have hmid := element_suffix hlo
    dsimp only at h
    split at h
    · rename_i c rest'
      split_ifs at h
      · obtain ⟨-, rfl⟩ := Prod.mk.inj (Option.some.inj h)
        exact hmid
      · obtain ⟨⟨hi, r⟩, hhi, h⟩ := Option.bind_eq_some_iff.1 h
        obtain ⟨-, rfl⟩ := Prod.mk.inj (Option.some.inj h)
        exact ((element_suffix hhi).trans (List.suffix_cons _ _)).trans hmid
    · obtain ⟨-, rfl⟩ := Prod.mk.inj (Option.some.inj h)
      exact hmid

theorem members_suffix {fuel : ℕ} {isFirst : Bool} {text rest : List Char} {member : Char → Bool}
    (h : members fuel isFirst text = some (member, rest)) : ']' :: rest <:+ text := by
  induction fuel generalizing isFirst text rest member with
  | zero => cases h
  | succ fuel ih =>
    rw [members] at h
    split_ifs at h with hend
    · obtain ⟨t, rfl⟩ := List.head?_eq_some_iff.1 hend.1
      obtain ⟨-, rfl⟩ := Prod.mk.inj (Option.some.inj h)
      exact List.suffix_rfl
    · simp only [Option.bind_eq_bind, Option.bind_eq_some_iff] at h
      obtain ⟨⟨m, mid⟩, hm, ⟨o, r⟩, ho, h⟩ := h
      obtain ⟨-, rfl⟩ := Prod.mk.inj (Option.some.inj h)
      exact (ih ho).trans (memberOf_suffix hm)

theorem bracket_suffix {text rest : List Char} {member : Char → Bool} (h : bracket text = some (member, rest)) :
    ']' :: rest <:+ text := by
  unfold bracket at h
  split at h
  · obtain ⟨⟨m, r⟩, hm, h⟩ := Option.bind_eq_some_iff.1 h
    obtain ⟨-, rfl⟩ := Prod.mk.inj (Option.some.inj h)
    exact (members_suffix hm).trans (List.suffix_cons _ _)
  · obtain ⟨⟨m, r⟩, hm, h⟩ := Option.bind_eq_some_iff.1 h
    obtain ⟨-, rfl⟩ := Prod.mk.inj (Option.some.inj h)
    exact (members_suffix hm).trans (List.suffix_cons _ _)
  · exact members_suffix h

theorem itemsFuel_nil (fuel : ℕ) : itemsFuel fuel [] = [] := by cases fuel <;> rfl

theorem itemsFuel_last {c : Char} (h : isPlain c) (hend : c ≠ ']') {fuel : ℕ} {pat : List Char}
    (hlen : pat.length ≤ fuel) (hlast : pat.getLast? = some c) : ∃ is, itemsFuel fuel pat = is ++ [.char c] := by
  induction fuel generalizing pat with
  | zero =>
    obtain rfl := List.length_eq_zero_iff.1 (Nat.le_zero.1 hlen)
    cases hlast
  | succ fuel ih =>
    -- what is left of the pattern ends alike
    have hmore : ∀ {i : Item} {rest : List Char}, rest <:+ pat → rest ≠ [] → rest.length < pat.length →
        ∃ is, i :: itemsFuel fuel rest = is ++ [.char c] := by
      rintro i rest ⟨u, rfl⟩ hne hlt
      rw [List.getLast?_append_of_ne_nil _ hne] at hlast
      obtain ⟨is, his⟩ := ih (by omega) hlast
      exact ⟨i :: is, by rw [his]; rfl⟩
    obtain ⟨d, pat, rfl⟩ := List.exists_cons_of_ne_nil (l := pat) (by rintro rfl; cases hlast)
    have hlt : pat.length < (d :: pat).length := Nat.lt_succ_self _
    by_cases hnil : pat = []
    · subst hnil
      obtain rfl : d = c := Option.some.inj hlast
      exact ⟨[], by rw [itemsFuel_cons h, itemsFuel_nil]; rfl⟩
    rw [itemsFuel.eq_def]
    dsimp only
    split
    · exact hmore (List.suffix_cons _ _) hnil hlt
    · exact hmore (List.suffix_cons _ _) hnil hlt
    · rename_i e rest
      by_cases hrest : rest = []
      · subst hrest
        obtain rfl : e = c := Option.some.inj hlast
        exact ⟨[], by rw [itemsFuel_nil]; rfl⟩
      · exact hmore ⟨['\\', e], rfl⟩ hrest (by rw [List.length_cons, List.length_cons]; omega)
    · split
      · rename_i member rest hbracket
        have hsuf := bracket_suffix hbracket
        have hne : rest ≠ [] := by
          rintro rfl
          obtain ⟨u, rfl⟩ := hsuf
          rw [← List.cons_append, List.getLast?_concat] at hlast
          exact hend (Option.some.inj hlast).symm
        have hle := hsuf.length_le
        exact hmore (((List.suffix_cons _ _).trans hsuf).trans (List.suffix_cons _ _)) hne
          (by rw [List.length_cons] at hle ⊢; omega)
      · exact hmore (List.suffix_cons _ _) hnil hlt
    · exact hmore (List.suffix_cons _ _) hnil hlt

/-! ### What the items take -/

/-- The part of a text that fits an item. -/
def Item.Takes : Item → List Char → Prop
  | .char c, s => s = [c]
  | .one, s => ∃ d, s = [d]
  | .set member, s => ∃ d, s = [d] ∧ member d
  | .star, _ => True

theorem Item.Takes.length {i : Item} {s : List Char} (h : i.Takes s) : s.length = 1 ∨ i = .star := by
  cases i with
  | char c =>
    obtain rfl : s = [c] := h
    exact .inl rfl
  | one =>
    obtain ⟨d, rfl⟩ := h
    exact .inl rfl
  | star => exact .inr rfl
  | set member =>
    obtain ⟨d, rfl, -⟩ := h
    exact .inl rfl

theorem fits_cons (i : Item) (is : List Item) (text : List Char) :
    fits (i :: is) text ↔ ∃ s t, text = s ++ t ∧ i.Takes s ∧ fits is t := by
  cases i with
  | star =>
    show text.tails.any (fits is) = true ↔ _
    simp only [List.any_eq_true, List.mem_tails]
    constructor
    · rintro ⟨t, ⟨s, rfl⟩, hfits⟩
      exact ⟨s, t, rfl, trivial, hfits⟩
    · rintro ⟨s, t, rfl, -, hfits⟩
      exact ⟨t, List.suffix_append _ _, hfits⟩
  | _ =>
    cases text with
    | nil => simp [fits, Item.Takes]
    | cons d text => simp [fits, Item.Takes, List.cons_eq_append_iff]

theorem fits_append (is js : List Item) (text : List Char) :
    fits (is ++ js) text ↔ ∃ s t, text = s ++ t ∧ fits is s ∧ fits js t := by
  induction is generalizing text with
  | nil => simp [fits]
  | cons i is ih =>
    simp only [List.cons_append, fits_cons, ih]
    constructor
    · rintro ⟨s, _, rfl, hs, t, u, rfl, ht, hu⟩
      exact ⟨s ++ t, u, by simp, ⟨s, t, rfl, hs, ht⟩, hu⟩
    · rintro ⟨_, u, rfl, ⟨s, t, rfl, hs, ht⟩, hu⟩
      exact ⟨s, t ++ u, by simp, hs, t, u, rfl, ht, hu⟩

theorem fit_last {c : Char} (h : isPlain c) (hend : c ≠ ']') {pat text : List Char}
    (hfit : fit (pat ++ [c]) text) : ∃ rest, text = rest ++ [c] := by
  have hlast : (pat ++ [c]).getLast? = some c := List.getLast?_concat
  obtain ⟨is, his⟩ := itemsFuel_last h hend le_rfl hlast
  rw [fit, items, his, fits_append] at hfit
  obtain ⟨s, t, rfl, -, ht⟩ := hfit
  obtain ⟨_, _, rfl, rfl, hnil⟩ := (fits_cons _ _ _).1 ht
  obtain rfl := List.isEmpty_iff.1 hnil
  exact ⟨s, rfl⟩

theorem length_itemsFuel (fuel : ℕ) (pat : List Char) : (itemsFuel fuel pat).length ≤ pat.length := by
  induction fuel generalizing pat with
  | zero => exact Nat.zero_le _
  | succ fuel ih =>
    have hmore : ∀ (i : Item) (rest : List Char) {pat : List Char}, rest.length < pat.length →
        (i :: itemsFuel fuel rest).length ≤ pat.length := by
      intro i rest pat hlt
      have := ih rest
      rw [List.length_cons]
      omega
    cases pat with
    | nil => exact Nat.zero_le _
    | cons c pat =>
      rw [itemsFuel.eq_def]
      dsimp only
      split
      · exact hmore _ _ (Nat.lt_succ_self _)
      · exact hmore _ _ (Nat.lt_succ_self _)
      · exact hmore _ _ (by rw [List.length_cons, List.length_cons]; omega)
      · split
        · rename_i member rest hbracket
          have hle := (bracket_suffix hbracket).length_le
          exact hmore _ _ (by rw [List.length_cons] at hle ⊢; omega)
        · exact hmore _ _ (Nat.lt_succ_self _)
      · exact hmore _ _ (Nat.lt_succ_self _)

theorem fits_insert {is : List Item} {text : List Char} (h : fits is text) :
    text.length ≤ is.length ∨ ∃ s t, text = s ++ t ∧ ∀ u, fits is (s ++ u ++ t) := by
  induction is generalizing text with
  | nil => exact .inl (by rw [List.isEmpty_iff.1 h]; exact le_rfl)
  | cons i is ih =>
    obtain ⟨s, t, rfl, hs, ht⟩ := (fits_cons i is text).1 h
    rcases hs.length with hlen | rfl
    · rcases ih ht with hle | ⟨v, w, rfl, hvw⟩
      · exact .inl (by rw [List.length_append, List.length_cons]; omega)
      · exact .inr ⟨s ++ v, w, by simp, fun u => (fits_cons _ _ _).2 ⟨s, v ++ u ++ w, by simp, hs, hvw u⟩⟩
    · exact .inr ⟨[], s ++ t, rfl, fun u => (fits_cons _ _ _).2 ⟨u ++ s, t, by simp, trivial, ht⟩⟩

/-- A text longer than the pattern has a part that fits a `*`, so any text can be put in there. -/
theorem exists_insert {pat text : List Char} (h : fit pat text) (hlen : pat.length < text.length) :
    ∃ s t, text = s ++ t ∧ ∀ u, fit pat (s ++ u ++ t) := by
  have := length_itemsFuel pat.length pat
  rcases fits_insert h with hle | hins
  · rw [items] at hle
    omega
  · exact hins

end CWorkspace.Shell

namespace CWorkspace.Paths
open Shell

/-! ### Names for a pattern -/

/-- A pattern that fits another name fits one that is another even without its blanks. -/
theorem exists_other_name {pat name : List Char} (h : FitsName pat name) (hne : name ≠ pat) (hname : '/' ∉ name) :
    ∃ other, FitsName pat other ∧ '/' ∉ other ∧ withoutBlanks other ≠ pat := by
  by_cases hfilter : withoutBlanks name = pat
  · -- blanks have been put in, for a `*`
    have hlen : pat.length < name.length := by
      have hsub := List.filter_sublist (p := fun c => !isBlank c) (l := name)
      change List.Sublist (withoutBlanks name) name at hsub
      rw [hfilter] at hsub
      exact lt_of_le_of_ne hsub.length_le fun heq => hne (hsub.eq_of_length heq).symm
    obtain ⟨s, t, rfl, hins⟩ := exists_insert h.fit hlen
    refine ⟨s ++ ['x'] ++ t, ⟨hins ['x'], fun hnil => by simp at hnil, fun hdot => h.dot ?_⟩, ?_, fun heq => ?_⟩
    · cases s with
      | nil => exact absurd (Option.some.inj hdot) (by decide)
      | cons c s => exact hdot
    · simpa using hname
    · have hsame := congrArg List.length (heq.trans hfilter.symm)
      simp [withoutBlanks, show isBlank 'x' = false from rfl] at hsame
  · exact ⟨name, h, hname, hfilter⟩

instance (pat name : List Char) : Decidable (FitsName pat name) :=
  decidable_of_iff (fit pat name ∧ (name = [] → pat = []) ∧
    (name.head? = some '.' → (items pat).head?.any Item.isDot))
    ⟨fun ⟨h1, h2, h3⟩ => ⟨h1, h2, h3⟩, fun ⟨h1, h2, h3⟩ => ⟨h1, h2, h3⟩⟩

instance (word path : List Char) : Decidable (Names word path) :=
  decidable_of_iff (isPattern word ∧ (word.splitOn '/').length = (path.splitOn '/').length ∧
    ∀ e ∈ (word.splitOn '/').zip (path.splitOn '/'), FitsName e.1 e.2)
    (and_congr_right fun _ => by simp [List.forall₂_iff_zip])

theorem not_mem_of_mem_splitOn {x w : List Char} {c : Char} (h : w ∈ x.splitOn c) : c ∉ w := by
  rw [List.splitOn_eq_splitOnP] at h
  exact fun hc => beq_eq_false_iff_ne.1 (mem_splitOnP w h c hc).2 rfl

theorem eq_intercalate {x : List Char} {c : Char} {parts : List (List Char)} (h : x.splitOn c = parts) :
    x = [c].intercalate parts := by
  rw [← h, List.intercalate_splitOn]

theorem Names.cons {c : Char} {word path : List Char} (h : Names (c :: word) path) (hplain : isPlain c)
    (hc : c ≠ '/') : ∃ rest, path = c :: rest := by
  obtain ⟨pat, pats, hpats⟩ := List.exists_cons_of_ne_nil (List.splitOn_ne_nil '/' word)
  have hall := h.2
  rw [List.splitOn_cons_eq_if_modifyHead, if_neg (by simpa using hc), hpats, List.modifyHead_cons,
    List.forall₂_cons_left_iff] at hall
  obtain ⟨name, names, hfit, -, hpath⟩ := hall
  obtain ⟨rest, rfl, -⟩ := (fit_cons hplain pat name).1 hfit.fit
  rw [eq_intercalate hpath]
  cases names with
  | nil => exact ⟨rest, List.intercalate_singleton⟩
  | cons n names => exact ⟨_, by rw [List.intercalate_cons_cons]; rfl⟩

theorem names_iff_of_name {word path : List Char} (h : '/' ∉ word) :
    Names word path ↔ isPattern word ∧ '/' ∉ path ∧ FitsName word path := by
  rw [Names, List.splitOn_eq_singleton h]
  refine and_congr_right fun _ => ⟨fun hall => ?_, fun ⟨hpath, hfit⟩ => ?_⟩
  · obtain ⟨name, _, hfit, hnil, heq⟩ := List.forall₂_cons_left_iff.1 hall
    cases hnil
    obtain rfl : path = name := (eq_intercalate heq).trans List.intercalate_singleton
    exact ⟨not_mem_of_mem_splitOn (heq ▸ List.mem_singleton_self _), hfit⟩
  · rw [List.splitOn_eq_singleton hpath]
    exact .cons hfit .nil

theorem names_iff_of_dir {dir word path : List Char} (hdir : '/' ∉ dir) (hword : '/' ∉ word) :
    Names (dir ++ '/' :: word) path ↔ isPattern (dir ++ '/' :: word) ∧
      ∃ c d, path = c ++ '/' :: d ∧ ('/' ∉ c ∧ '/' ∉ d) ∧ FitsName dir c ∧ FitsName word d := by
  rw [Names, List.splitOn_append_cons_self_of_not_mem hdir, List.splitOn_eq_singleton hword]
  refine and_congr_right fun _ => ⟨fun hall => ?_, ?_⟩
  · obtain ⟨c, _, hc, hall, heq⟩ := List.forall₂_cons_left_iff.1 hall
    obtain ⟨d, _, hd, hnil, rfl⟩ := List.forall₂_cons_left_iff.1 hall
    cases hnil
    have hfree : ∀ name ∈ [c, d], '/' ∉ name := fun name hname => not_mem_of_mem_splitOn (heq ▸ hname)
    have hpath := eq_intercalate heq
    rw [List.intercalate_cons_cons, List.intercalate_singleton, List.append_assoc] at hpath
    exact ⟨c, d, hpath, ⟨hfree c (by simp), hfree d (by simp)⟩, hc, hd⟩
  · rintro ⟨c, d, rfl, ⟨hc, hd⟩, hfitc, hfitd⟩
    rw [List.splitOn_append_cons_self_of_not_mem hc, List.splitOn_eq_singleton hd]
    exact .cons hfitc (.cons hfitd .nil)

theorem eq_of_fitsName {pat c d name : List Char} (hc : FitsName pat c) (hd : FitsName pat d)
    (hc' : c = [] ∨ c = name) (hd' : d = [] ∨ d = name) : c = d := by
  have hnil : ∀ {c d : List Char}, FitsName pat c → FitsName pat d → c = [] → d = [] := by
    rintro c d hc hd rfl
    obtain rfl := hc.name_ne rfl
    exact (fit_nil d).1 hd.fit
  rcases hc' with rfl | rfl
  · exact (hnil hc hd rfl).symm
  · rcases hd' with rfl | rfl
    exacts [hnil hd hc rfl, rfl]

/-- The paths below a directory, those of directories on the way to another with and without a slash. -/
structure Tree where
  paths : List (List Char)
  nodup : paths.Nodup
  closed : ∀ dir rest, dir ++ '/' :: rest ∈ paths → dir ≠ [] → dir ∈ paths ∧ dir ++ ['/'] ∈ paths

namespace Tree

def expand (tree : Tree) (word : List Char) : List (List Char) :=
  if tree.paths.filter (Names word ·) = [] then [word] else tree.paths.filter (Names word ·)

theorem fileNames (tree : Tree) : FileNames tree.expand := by
  intro word
  rw [expand]
  split_ifs with h
  · exact .inl rfl
  · exact .inr ⟨h, tree.nodup.filter _, fun path hpath => of_decide_eq_true (List.mem_filter.1 hpath).2⟩

def empty : Tree where
  paths := []
  nodup := List.Pairwise.nil
  closed _ _ hmem := absurd hmem List.not_mem_nil

theorem expand_empty : empty.expand = fun word => [word] := rfl

/-- No word with one slash at most has two names in the tree, and there is one way into it. -/
structure Narrow (tree : Tree) (top : List Char) : Prop where
  name : ∀ path ∈ tree.paths, '/' ∉ path → path = top ∧ top ≠ []
  dir : ∀ c d, c ++ '/' :: d ∈ tree.paths → '/' ∉ c → c = top
  unique : ∀ word, word.count '/' ≤ 1 → ∀ p ∈ tree.paths, ∀ q ∈ tree.paths, Names word p → Names word q → p = q

theorem Narrow.expand {tree : Tree} {top word : List Char} (h : tree.Narrow top) (hword : word.count '/' ≤ 1) :
    ∃ path, tree.expand word = [path] ∧ (path = word ∨ Names word path ∧ path ∈ tree.paths) ∧
      ∀ p ∈ tree.paths, Names word p → path = p := by
  have hunique := h.unique word hword
  have hmem : ∀ p, p ∈ tree.paths.filter (Names word ·) ↔ p ∈ tree.paths ∧ Names word p := fun p => by simp
  have hnodup := tree.nodup.filter (Names word ·)
  rw [Tree.expand]
  generalize tree.paths.filter (Names word ·) = names at hmem hnodup
  rcases names with _ | ⟨p, _ | ⟨q, names⟩⟩
  · refine ⟨word, rfl, .inl rfl, fun p hp hnames => ?_⟩
    exact absurd ((hmem p).2 ⟨hp, hnames⟩) List.not_mem_nil
  · obtain ⟨hp, hnames⟩ := (hmem p).1 (by simp)
    exact ⟨p, if_neg (by simp), .inr ⟨hnames, hp⟩, fun q hq hq' => hunique p hp q hq hnames hq'⟩
  · obtain ⟨hp, hp'⟩ := (hmem p).1 (by simp)
    obtain ⟨hq, hq'⟩ := (hmem q).1 (by simp)
    rw [hunique p hp q hq hp' hq'] at hnodup
    exact absurd (List.mem_cons_self) (List.nodup_cons.1 hnodup).1

def single (name : List Char) (h : '/' ∉ name) : Tree where
  paths := [name]
  nodup := List.pairwise_singleton _ _
  closed dir _ hmem _ := absurd (List.mem_singleton.1 hmem ▸ List.mem_append_right dir List.mem_cons_self) h

theorem narrow_single {name : List Char} (h : '/' ∉ name) (hne : name ≠ []) : (single name h).Narrow name where
  name _ hpath _ := ⟨List.mem_singleton.1 hpath, hne⟩
  dir c _ hmem _ := absurd (List.mem_singleton.1 hmem ▸ List.mem_append_right c List.mem_cons_self) h
  unique _ _ _ hp _ hq _ _ := (List.mem_singleton.1 hp).trans (List.mem_singleton.1 hq).symm

/-- A file, or the directory itself, below a directory; without a name for that, at the root. -/
def below (dir name : List Char) (hdir : '/' ∉ dir) (hname : '/' ∉ name) : Tree where
  paths := (if dir = [] then ['/' :: name] else [dir, dir ++ ['/'], dir ++ '/' :: name]).dedup
  nodup := List.nodup_dedup _
  closed d rest hmem hne := by
    rw [List.mem_dedup] at hmem
    rw [List.mem_dedup, List.mem_dedup]
    split_ifs at hmem ⊢ with hnil
    · -- no name is before the only slash
      obtain ⟨c, d, rfl⟩ := List.exists_cons_of_ne_nil hne
      obtain ⟨-, rfl⟩ := List.cons.inj (List.mem_singleton.1 hmem)
      exact absurd (List.mem_append_right d List.mem_cons_self) hname
    · suffices d = dir by simp [this]
      rcases List.mem_cons.1 hmem with rfl | hmem
      · exact absurd (List.mem_append_right d List.mem_cons_self) hdir
      rcases List.mem_pair.1 hmem with heq | heq
      · exact ((List.append_cons_inj_of_notMem hdir List.not_mem_nil).1 heq.symm).1.symm
      · exact ((List.append_cons_inj_of_notMem hdir hname).1 heq.symm).1.symm

section
variable {dir name : List Char} (hdir : '/' ∉ dir) (hname : '/' ∉ name)

theorem mem_below : dir ++ '/' :: name ∈ (below dir name hdir hname).paths := by
  rw [below, List.mem_dedup]
  split_ifs with hnil
  · simp [hnil]
  · simp

theorem mem_below_cases {path : List Char} (h : path ∈ (below dir name hdir hname).paths) :
    (path = dir ∧ dir ≠ []) ∨ ∃ rest, path = dir ++ '/' :: rest ∧ (rest = [] ∨ rest = name) := by
  rw [below, List.mem_dedup] at h
  split_ifs at h with hnil
  · exact .inr ⟨name, by rw [hnil]; exact List.mem_singleton.1 h, .inr rfl⟩
  · rcases List.mem_cons.1 h with rfl | h
    · exact .inl ⟨rfl, hnil⟩
    rcases List.mem_pair.1 h with rfl | rfl
    exacts [.inr ⟨[], rfl, .inl rfl⟩, .inr ⟨name, rfl, .inr rfl⟩]

theorem eq_of_mem_below {c d : List Char} (hc : '/' ∉ c)
    (h : c ++ '/' :: d ∈ (below dir name hdir hname).paths) : c = dir ∧ (d = [] ∨ d = name) := by
  rcases mem_below_cases hdir hname h with ⟨heq, -⟩ | ⟨rest, heq, hrest⟩
  · exact absurd (heq ▸ List.mem_append_right c List.mem_cons_self) hdir
  · have hfree : '/' ∉ rest := by rcases hrest with rfl | rfl; exacts [List.not_mem_nil, hname]
    obtain ⟨rfl, -, rfl⟩ := (List.append_cons_inj_of_notMem hdir hfree).1 heq.symm
    exact ⟨rfl, hrest⟩

theorem narrow_below : (below dir name hdir hname).Narrow dir where
  name path hpath hfree := by
    rcases mem_below_cases hdir hname hpath with h | ⟨rest, rfl, -⟩
    · exact h
    · exact absurd (List.mem_append_right dir List.mem_cons_self) hfree
  dir c d hmem hc := (eq_of_mem_below hdir hname hc hmem).1
  unique word hword p hp q hq hnamesp hnamesq := by
    by_cases hmem : '/' ∈ word
    · obtain ⟨a, b, rfl, ha⟩ := List.eq_append_cons_of_mem hmem
      have hb : '/' ∉ b := by
        rw [List.count_append, List.count_cons_self] at hword
        exact List.count_eq_zero.1 (by omega)
      obtain ⟨-, c, d, rfl, ⟨hc, hd⟩, -, hfit⟩ := (names_iff_of_dir ha hb).1 hnamesp
      obtain ⟨-, c', d', rfl, ⟨hc', hd'⟩, -, hfit'⟩ := (names_iff_of_dir ha hb).1 hnamesq
      obtain ⟨rfl, hd⟩ := eq_of_mem_below hdir hname hc hp
      obtain ⟨rfl, hd'⟩ := eq_of_mem_below hdir hname hc' hq
      rw [eq_of_fitsName hfit hfit' hd hd']
    · obtain ⟨-, hp', -⟩ := (names_iff_of_name hmem).1 hnamesp
      obtain ⟨-, hq', -⟩ := (names_iff_of_name hmem).1 hnamesq
      rcases mem_below_cases hdir hname hp with ⟨rfl, -⟩ | ⟨rest, rfl, -⟩
      · rcases mem_below_cases hdir hname hq with ⟨rfl, -⟩ | ⟨rest, rfl, -⟩
        · rfl
        · exact absurd (List.mem_append_right _ List.mem_cons_self) hq'
      · exact absurd (List.mem_append_right _ List.mem_cons_self) hp'

end

/-- For a pattern that fits another path there is a tree with one path for it, another even without its blanks. -/
theorem exists_narrow {word path : List Char} (hword : word.count '/' ≤ 1) (h : Names word path)
    (hne : path ≠ word) : ∃ (tree : Tree) (top other : List Char), tree.Narrow top ∧ other ∈ tree.paths ∧
      Names word other ∧ withoutBlanks other ≠ word := by
  by_cases hmem : '/' ∈ word
  · obtain ⟨a, b, rfl, ha⟩ := List.eq_append_cons_of_mem hmem
    have hb : '/' ∉ b := by
      rw [List.count_append, List.count_cons_self] at hword
      exact List.count_eq_zero.1 (by omega)
    obtain ⟨hpat, c, d, rfl, ⟨hc, hd⟩, hfitc, hfitd⟩ := (names_iff_of_dir ha hb).1 h
    suffices ∃ c d, ('/' ∉ c ∧ '/' ∉ d) ∧ (FitsName a c ∧ FitsName b d) ∧
        ¬ (withoutBlanks c = a ∧ withoutBlanks d = b) by
      obtain ⟨c, d, ⟨hc, hd⟩, hfits, hother⟩ := this
      refine ⟨below c d hc hd, c, c ++ '/' :: d, narrow_below hc hd, mem_below hc hd,
        (names_iff_of_dir ha hb).2 ⟨hpat, c, d, rfl, ⟨hc, hd⟩, hfits⟩, fun heq => hother ?_⟩
      rw [withoutBlanks_append_cons c d (by rfl)] at heq
      obtain ⟨hc', -, hd'⟩ := (List.append_cons_inj_of_notMem (fun h => hc (List.mem_of_mem_filter h))
        fun h => hd (List.mem_of_mem_filter h)).1 heq
      exact ⟨hc', hd'⟩
    by_cases heq : c = a
    · obtain ⟨d', hfitd', hd', hother⟩ := exists_other_name hfitd (fun heq' => hne (by rw [heq, heq'])) hd
      exact ⟨c, d', ⟨hc, hd'⟩, ⟨hfitc, hfitd'⟩, fun h => hother h.2⟩
    · obtain ⟨c', hfitc', hc', hother⟩ := exists_other_name hfitc heq hc
      exact ⟨c', d, ⟨hc', hd⟩, ⟨hfitc', hfitd⟩, fun h => hother h.1⟩
  · obtain ⟨hpat, hpath, hfit⟩ := (names_iff_of_name hmem).1 h
    obtain ⟨other, hfit', hother', hother⟩ := exists_other_name hfit hne hpath
    have hnil : other ≠ [] := by
      rintro rfl
      obtain rfl := hfit'.name_ne rfl
      cases hpat
    exact ⟨single other hother', other, other, narrow_single hother' hnil, List.mem_singleton_self _,
      (names_iff_of_name hmem).2 ⟨hpat, hother', hfit'⟩, hother⟩

end Tree

end CWorkspace.Paths
