import Mathlib.Data.List.Sort
import Mathlib.Order.Lattice

/-!
# Ordered maps with unique keys

`OrderedMap K V` is a list of entries in strictly ascending key order, the way an ordered container
iterates over them. `emplace` keeps the entry of an occupied key. A map is determined by `find?`
(`ext_find?`), and its entries are read off any ascending list of candidate keys
(`entries_eq_filterMap`).
-/

namespace CWorkspace

structure OrderedMap (K V : Type*) [LinearOrder K] where
  entries : List (K × V)
  sorted : entries.Pairwise (·.1 < ·.1)

namespace OrderedMap
variable {K V : Type*} [LinearOrder K]

instance : EmptyCollection (OrderedMap K V) := ⟨⟨[], List.Pairwise.nil⟩⟩

def insertEntry (k : K) (v : V) : List (K × V) → List (K × V)
  | [] => [(k, v)]
  | e :: es => if k < e.1 then (k, v) :: e :: es
    else if k = e.1 then e :: es else e :: insertEntry k v es

theorem mem_insertEntry {k : K} {v : V} {e : K × V} {es : List (K × V)}
    (h : e ∈ insertEntry k v es) : e = (k, v) ∨ e ∈ es := by
  induction es with
  | nil => simpa [insertEntry] using h
  | cons e' es ih =>
    rw [insertEntry] at h
    split_ifs at h
    · simpa using h
    · exact .inr h
    · rcases List.mem_cons.1 h with rfl | h
      · exact .inr (by simp)
      · exact (ih h).imp_right (List.mem_cons_of_mem _)

theorem sorted_insertEntry {k : K} {v : V} {es : List (K × V)} (h : es.Pairwise (·.1 < ·.1)) :
    (insertEntry k v es).Pairwise (·.1 < ·.1) := by
  induction es with
  | nil => simp [insertEntry]
  | cons e es ih =>
    obtain ⟨he, hes⟩ := List.pairwise_cons.1 h
    rw [insertEntry]
    split_ifs with hlt heq
    · refine List.pairwise_cons.2 ⟨fun e' he' => ?_, h⟩
      rcases List.mem_cons.1 he' with rfl | he'
      exacts [hlt, hlt.trans (he e' he')]
    · exact h
    · refine List.pairwise_cons.2 ⟨fun e' he' => ?_, ih hes⟩
      rcases mem_insertEntry he' with rfl | he'
      exacts [lt_of_le_of_ne (not_lt.1 hlt) (Ne.symm heq), he e' he']

def emplace (m : OrderedMap K V) (k : K) (v : V) : OrderedMap K V :=
  ⟨insertEntry k v m.entries, sorted_insertEntry m.sorted⟩

def erase (m : OrderedMap K V) (k : K) : OrderedMap K V :=
  ⟨m.entries.filter (·.1 ≠ k), m.sorted.filter _⟩

def find? (m : OrderedMap K V) (k : K) : Option V := m.entries.lookup k

@[simp] theorem find?_empty (k : K) : (∅ : OrderedMap K V).find? k = none := rfl

theorem lookup_cons_self (k : K) (v : V) (es : List (K × V)) : ((k, v) :: es).lookup k = some v := by
  simp

theorem lookup_cons_ne {k k' : K} (v : V) (es : List (K × V)) (h : k' ≠ k) :
    ((k, v) :: es).lookup k' = es.lookup k' := by
  simp [List.lookup_cons, beq_eq_false_iff_ne.2 h]

theorem lookup_insertEntry (k k' : K) (v : V) (es : List (K × V)) (h : es.Pairwise (·.1 < ·.1)) :
    (insertEntry k v es).lookup k' =
      if k' = k then some ((es.lookup k).getD v) else es.lookup k' := by
  induction es with
  | nil =>
    split_ifs with hk
    · subst hk; exact lookup_cons_self ..
    · exact lookup_cons_ne _ _ hk
  | cons e es ih =>
    obtain ⟨k₁, v₁⟩ := e
    obtain ⟨he, hes⟩ := List.pairwise_cons.1 h
    rcases lt_trichotomy k k₁ with hlt | rfl | hgt
    · -- a new smallest key: the entries behind it are all larger
      have hnone : ((k₁, v₁) :: es).lookup k = none := List.lookup_eq_none_iff.2 fun e' he' => by
        rcases List.mem_cons.1 he' with rfl | he'
        · simpa using hlt.ne
        · simpa using (hlt.trans (he e' he')).ne
      rw [insertEntry, if_pos hlt, hnone]
      split_ifs with hk
      · subst hk; exact lookup_cons_self ..
      · exact lookup_cons_ne _ _ hk
    · rw [insertEntry, if_neg (lt_irrefl _), if_pos rfl, lookup_cons_self]
      split_ifs with hk
      · subst hk; exact lookup_cons_self ..
      · rfl
    · rw [insertEntry, if_neg hgt.asymm, if_neg hgt.ne', lookup_cons_ne _ _ hgt.ne']
      by_cases hk₁ : k' = k₁
      · subst hk₁
        rw [lookup_cons_self, lookup_cons_self, if_neg hgt.ne]
      · rw [lookup_cons_ne _ _ hk₁, lookup_cons_ne _ _ hk₁, ih hes]

theorem lookup_filter (p : K → Bool) (k : K) (es : List (K × V)) :
    (es.filter (p ·.1)).lookup k = if p k then es.lookup k else none := by
  induction es with
  | nil => simp
  | cons e es ih =>
    obtain ⟨k₁, v₁⟩ := e
    by_cases hk : k = k₁
    · subst hk
      by_cases hp : p k <;> simp [hp, ih]
    · by_cases hp : p k₁ <;> simp [hp, ih, lookup_cons_ne _ _ hk]

theorem find?_emplace (m : OrderedMap K V) (k k' : K) (v : V) :
    (m.emplace k v).find? k' = if k' = k then some ((m.find? k).getD v) else m.find? k' :=
  lookup_insertEntry k k' v m.entries m.sorted

theorem find?_erase (m : OrderedMap K V) (k k' : K) :
    (m.erase k).find? k' = if k' = k then none else m.find? k' := by
  have := lookup_filter (fun k' => decide (k' ≠ k)) k' m.entries
  by_cases h : k' = k <;> simpa [h, find?, erase] using this

theorem find?_eq_some_iff (m : OrderedMap K V) (k : K) (v : V) :
    m.find? k = some v ↔ (k, v) ∈ m.entries := by
  obtain ⟨es, hs⟩ := m
  simp only [find?]
  induction es with
  | nil => simp
  | cons e es ih =>
    obtain ⟨k₁, v₁⟩ := e
    obtain ⟨he, hes⟩ := List.pairwise_cons.1 hs
    by_cases hk : k = k₁
    · subst hk
      have hnot : (k, v) ∉ es := fun hmem => lt_irrefl k (he (k, v) hmem)
      simp [hnot, eq_comm]
    · simp [lookup_cons_ne _ _ hk, ih hes, hk]

theorem entries_ext {m m' : OrderedMap K V} (h : m.entries = m'.entries) : m = m' := by
  cases m; cases m'; cases h; rfl

/-- Entries are determined by membership, ascending order leaving one way to list them. -/
theorem sorted_ext {es es' : List (K × V)} (h : es.Pairwise (·.1 < ·.1))
    (h' : es'.Pairwise (·.1 < ·.1)) (hmem : ∀ e, e ∈ es ↔ e ∈ es') : es = es' := by
  have hne : ∀ {l : List (K × V)}, l.Pairwise (·.1 < ·.1) → l.Nodup :=
    fun hl => hl.imp fun hlt heq => hlt.ne (congrArg Prod.fst heq)
  exact List.Perm.eq_of_pairwise (fun a b _ _ hab hba => absurd hab hba.asymm) h h'
    ((List.perm_ext_iff_of_nodup (hne h) (hne h')).2 hmem)

theorem ext_find? {m m' : OrderedMap K V} (h : ∀ k, m.find? k = m'.find? k) : m = m' :=
  entries_ext (sorted_ext m.sorted m'.sorted fun e => by
    rw [← find?_eq_some_iff, h, find?_eq_some_iff])

theorem entries_eq_filterMap (m : OrderedMap K V) {ks : List K} (hks : ks.Pairwise (· < ·))
    (hmem : ∀ k, (m.find? k).isSome → k ∈ ks) :
    m.entries = ks.filterMap fun k => (m.find? k).map (k, ·) := by
  refine sorted_ext m.sorted (hks.filterMap _ fun k k' hlt e he e' he' => ?_) fun e => ?_
  · obtain ⟨v, -, rfl⟩ := Option.map_eq_some_iff.1 he
    obtain ⟨v', -, rfl⟩ := Option.map_eq_some_iff.1 he'
    exact hlt
  · rw [← find?_eq_some_iff, List.mem_filterMap]
    constructor
    · intro h
      exact ⟨e.1, hmem e.1 (by simp [h]), by simp [h]⟩
    · rintro ⟨k, -, hk⟩
      obtain ⟨v, hv, rfl⟩ := Option.map_eq_some_iff.1 hk
      exact hv

def restrict (m : OrderedMap K V) (p : K → Bool) : OrderedMap K V :=
  ⟨m.entries.filter (p ·.1), m.sorted.filter _⟩

theorem find?_restrict (m : OrderedMap K V) (p : K → Bool) (k : K) :
    (m.restrict p).find? k = if p k then m.find? k else none :=
  lookup_filter p k m.entries

theorem entries_lt_append_ge (m : OrderedMap K V) (c : K) :
    (m.restrict (· < c)).entries ++ (m.restrict (c ≤ ·)).entries = m.entries := by
  refine sorted_ext (List.pairwise_append.2 ⟨(m.restrict _).sorted, (m.restrict _).sorted, ?_⟩)
    m.sorted fun e => ?_
  · intro e he e' he'
    have h := (List.mem_filter.1 he).2
    have h' := (List.mem_filter.1 he').2
    exact lt_of_lt_of_le (by simpa using h) (by simpa using h')
  · rw [List.mem_append, restrict, restrict, List.mem_filter, List.mem_filter, ← and_or_left]
    simp [lt_or_ge]

end OrderedMap

end CWorkspace
