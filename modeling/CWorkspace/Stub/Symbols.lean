import CWorkspace.Stub.Gene

/-!
# The method symbols

Of the lines with one name the first gives the signature (`find?_symbols`). A line that the signature pattern
matches has a non-empty name; all others go by the empty one.
-/

namespace CWorkspace.Stub

def lineName (line : string) : string := Regex.str (signatureRegex.search line) 1
def lineSignature (line : string) : string := Regex.str (signatureRegex.search line) 2

theorem lineName_eq_nil_iff (line : string) : lineName line = [] ↔ signatureRegex.search line = none := by
  constructor
  · intro h
    by_contra hne
    obtain ⟨m, hm⟩ := Option.ne_none_iff_exists'.1 hne
    obtain ⟨atStart, rest, hway⟩ := Regex.search_mem _ hm
    obtain ⟨s₁, -, hway⟩ := List.mem_flatMap.1 hway
    obtain ⟨s₂, hname, hway⟩ := List.mem_flatMap.1 hway
    -- the rest of the pattern keeps the first group, and the first group is not empty
    have hkeep := Regex.lookup_caps _ (n := 1) (by decide) hway
    obtain ⟨s₃, hany, rfl⟩ := List.mem_map.1 hname
    have hlt := Regex.length_rest_lt_of_rep (by decide) hany
    rw [lineName, Regex.str, hm, Option.bind_some, hkeep, List.lookup_cons] at h
    have hlen := congrArg List.length h
    simp only [beq_self_eq_true, Option.getD_some, List.length_take, List.length_nil] at hlen
    omega
  · intro h
    rw [lineName, h]; rfl

/-- A name that `lines` give a method, and the signature they give it. -/
def Method (lines : List string) (name signature : string) : Prop :=
  ((symbolLines lines).find? fun line => lineName line = name).map lineSignature = some signature

theorem find?_foldl_emplace (lines : List string) (accu : MethodSymbols) (name : string) :
    (lines.foldl (fun accu line => accu.emplace (lineName line) (lineSignature line)) accu).find? name =
      (accu.find? name).or ((lines.find? fun line => lineName line = name).map lineSignature) := by
  induction lines generalizing accu with
  | nil => simp
  | cons line lines ih =>
    rw [List.foldl_cons, ih, OrderedMap.find?_emplace, List.find?_cons]
    by_cases h : name = lineName line
    · subst h
      cases accu.find? (lineName line) <;> simp
    · simp [h, Ne.symm h]

variable {lines : List string} {name signature : string}

theorem find?_symbols : (parseAllMethodSymbolsFromCtags lines).find? name =
    ((symbolLines lines).find? fun line => lineName line = name).map lineSignature := by
  have h := find?_foldl_emplace (symbolLines lines) ∅ name
  rwa [OrderedMap.find?_empty, Option.none_or] at h

theorem mem_symbols_iff : (name, signature) ∈ (parseAllMethodSymbolsFromCtags lines).entries ↔
    Method lines name signature := by
  rw [← OrderedMap.find?_eq_some_iff, find?_symbols, Method]

theorem exists_method {line : string} (h : line ∈ symbolLines lines) :
    ∃ sig, Method lines (lineName line) sig := by
  have hfind : ((symbolLines lines).find? fun l => lineName l = lineName line).isSome :=
    List.find?_isSome.2 ⟨line, h, by simp⟩
  obtain ⟨first, hfirst⟩ := Option.isSome_iff_exists.1 hfind
  exact ⟨lineSignature first, by rw [Method, hfirst]; rfl⟩

theorem name_ne_nil_iff : (∀ name signature, Method lines name signature → name ≠ []) ↔
    ∀ line ∈ symbolLines lines, (signatureRegex.search line).isSome := by
  constructor
  · intro h line hline
    obtain ⟨sig, hsig⟩ := exists_method hline
    have := h _ _ hsig
    rwa [Ne, lineName_eq_nil_iff, ← Ne, ← Option.isSome_iff_ne_none] at this
  · intro h name sig hm
    obtain ⟨line, hline, -⟩ := Option.map_eq_some_iff.1 hm
    have heq : lineName line = name := by simpa using List.find?_some hline
    have := h line (List.mem_of_find?_eq_some hline)
    rwa [Option.isSome_iff_ne_none, Ne, ← lineName_eq_nil_iff, heq] at this

end CWorkspace.Stub
