import CWorkspace.Dispatcher

/-!
# Toggling an unknown process

`enableProcess` and `disableProcess` look the name up with `operator[]`, which binds a null pointer to a
name that is not registered, and then call through it. So a run goes well exactly as long as it toggles
registered names only (`run_ok_iff`), and then it never binds or unbinds by toggling nor meets a null
pointer in `proceed` (`toggles_harmless_iff`).
-/

namespace CWorkspace.Dispatcher
variable {R D : Type*}

def Call.isToggle : Call R D → Bool
  | enableProcess _ | disableProcess _ => true
  | _ => false

/-- The store after the calls, where one went through a null pointer the store at that moment. -/
def after (noneProcess : D → R) (calls : List (Call R D)) : Dispatcher R D :=
  match run noneProcess calls with
  | .ok d => d
  | .error d => d

/-- Along the run every stored pointer is an object, `proceed` calls through no null pointer, and the
toggles leave the names alone. -/
structure Harmless (noneProcess : D → R) (calls : List (Call R D)) : Prop where
  nonnull : ∀ before rest, calls = before ++ rest →
    ∀ name, (after noneProcess before).processes.lookup name ≠ some none
  proceed : ∀ before rest, calls = before ++ rest → ∀ order,
    (after noneProcess before).IterationOrder order →
      ∀ data, ((after noneProcess before).proceed order data).isSome
  names : ∀ before c rest, calls = before ++ c :: rest → c.isToggle →
    ∀ name, name ∈ (after noneProcess (before ++ [c])).processes ↔
      name ∈ (after noneProcess before).processes

theorem togglesRegistered_concat_iff {calls : List (Call R D)} {c : Call R D} :
    TogglesRegistered (calls ++ [c]) ↔ TogglesRegistered calls ∧
      ∀ name, (c.toggle? name).isSome → (binding calls name).isSome := by
  constructor
  · intro h
    exact ⟨h.of_concat, fun name => h calls c [] name rfl⟩
  · rintro ⟨h, hc⟩ before c' rest name hcalls htog
    rcases List.eq_nil_or_concat' rest with rfl | ⟨rest, c'', rfl⟩
    · obtain ⟨rfl, hlast⟩ := List.append_inj' hcalls rfl
      obtain rfl := List.singleton_inj.1 hlast
      exact hc name htog
    · rw [← List.cons_append, ← List.append_assoc] at hcalls
      exact h before c' rest name (List.append_inj' hcalls rfl).1 htog

theorem TogglesRegistered.of_append {before rest : List (Call R D)} (h : TogglesRegistered (before ++ rest)) :
    TogglesRegistered before :=
  fun b c r name hb => h b c (r ++ rest) name (by rw [hb, List.append_assoc, List.cons_append])

theorem toggleProcess_unknown (toggle : Process R D → Process R D) {d : Dispatcher R D} {name : String}
    (h : name ∉ d.processes) : toggleProcess toggle d name =
      .error { d with processes := d.processes.insert name none } := by
  simp only [toggleProcess, Finmap.lookup_eq_none.2 h]

namespace Holds
variable {d : Dispatcher R D} {noneProcess : D → R} {calls : List (Call R D)}

theorem lookup_ne_null (h : Holds d noneProcess calls) (name : String) :
    d.processes.lookup name ≠ some none := by
  rw [h.lookup]
  intro hnull
  obtain ⟨b, -, hb⟩ := Option.map_eq_some_iff.1 hnull
  cases hb

theorem proceed_isSome (h : Holds d noneProcess calls)
    {order : List (Sigma fun _ : String => Option (Process R D))} (ho : d.IterationOrder order) (data : D) :
    (d.proceed order data).isSome := by
  rcases d.proceed_cases order (h.order_nonnull ho) data with ⟨_, _, -, -, heq⟩ | ⟨-, heq⟩
  all_goals rw [heq]; rfl

theorem apply_unknown (h : Holds d noneProcess calls) {c : Call R D} {name : String}
    (hc : (c.toggle? name).isSome) (hreg : ¬ (binding calls name).isSome) :
    c.apply d = .error { d with processes := d.processes.insert name none } := by
  rw [← h.mem_iff] at hreg
  cases c with
  | addProcess | addLamda | removeProcess => cases hc
  | enableProcess n | disableProcess n =>
    by_cases hn : n = name
    · subst hn; exact toggleProcess_unknown _ hreg
    · simp [Call.toggle?, hn] at hc

end Holds

/-- A run goes well as long as it toggles registered processes; the first other toggle leaves a null
pointer, and ends it. -/
theorem run_cases (noneProcess : D → R) (calls : List (Call R D)) :
    (TogglesRegistered calls ∧ ∃ d, run noneProcess calls = .ok d ∧ Holds d noneProcess calls) ∨
    (¬ TogglesRegistered calls ∧ ∃ d name, run noneProcess calls = .error d ∧
      d.processes.lookup name = some none) := by
  induction calls using List.reverseRecOn with
  | nil =>
    have hnil : TogglesRegistered ([] : List (Call R D)) := fun _ _ _ _ hcalls => absurd hcalls (by simp)
    exact .inl ⟨hnil, run_holds noneProcess [] hnil⟩
  | append_singleton calls c ih =>
    rw [run_concat, togglesRegistered_concat_iff]
    rcases ih with ⟨hreg, d, hd, hh⟩ | ⟨hreg, d, name, hd, hnull⟩
    · by_cases hc : ∀ name, (c.toggle? name).isSome → (binding calls name).isSome
      · obtain ⟨d', hd', hh'⟩ := hh.apply c hc
        exact .inl ⟨⟨hreg, hc⟩, d', by rw [hd]; exact hd', hh'⟩
      · refine .inr ⟨fun h => hc h.2, ?_⟩
        push Not at hc
        obtain ⟨name, htog, hfree⟩ := hc
        exact ⟨_, name, by rw [hd]; exact hh.apply_unknown htog (by simp [hfree]), Finmap.lookup_insert _⟩
    · exact .inr ⟨fun h => hreg h.1, d, name, by rw [hd]; rfl, hnull⟩

theorem run_ok_iff (noneProcess : D → R) (calls : List (Call R D)) :
    (∃ d, run noneProcess calls = .ok d) ↔ TogglesRegistered calls := by
  rcases run_cases noneProcess calls with ⟨hreg, d, hd, -⟩ | ⟨hreg, d, -, hd, -⟩
  · exact iff_of_true ⟨d, hd⟩ hreg
  · refine iff_of_false ?_ hreg
    rintro ⟨d', hd'⟩
    rw [hd] at hd'
    cases hd'

theorem after_holds (noneProcess : D → R) {calls : List (Call R D)} (h : TogglesRegistered calls) :
    Holds (after noneProcess calls) noneProcess calls := by
  obtain ⟨d, hd, hh⟩ := run_holds noneProcess calls h
  rw [after, hd]
  exact hh

theorem after_null (noneProcess : D → R) {calls : List (Call R D)} (h : ¬ TogglesRegistered calls) :
    ∃ name, (after noneProcess calls).processes.lookup name = some none := by
  rcases run_cases noneProcess calls with ⟨hreg, -⟩ | ⟨-, d, name, hd, hnull⟩
  · exact absurd hreg h
  · rw [after, hd]
    exact ⟨name, hnull⟩

theorem bindStep_isSome_of_toggle {c : Call R D} (hc : c.isToggle) (name : String)
    (b : Option (Binding R D)) : (bindStep name b c).isSome = b.isSome := by
  cases c with
  | addProcess | addLamda | removeProcess => cases hc
  | enableProcess | disableProcess => exact Option.isSome_map

/-- In every state of a run the pointers are objects and toggling is harmless, exactly if the run enables
and disables registered processes only. -/
theorem toggles_harmless_iff (noneProcess : D → R) (calls : List (Call R D)) :
    Harmless noneProcess calls ↔ TogglesRegistered calls := by
  constructor
  · intro h
    by_contra hreg
    obtain ⟨name, hnull⟩ := after_null noneProcess hreg
    exact h.nonnull calls [] (List.append_nil _).symm name hnull
  · intro h
    have hbefore : ∀ before rest, calls = before ++ rest → Holds (after noneProcess before) noneProcess before :=
      fun before rest he => after_holds noneProcess (he ▸ h : TogglesRegistered (before ++ rest)).of_append
    refine ⟨fun before rest he name => (hbefore before rest he).lookup_ne_null name,
      fun before rest he order ho data => (hbefore before rest he).proceed_isSome ho data, ?_⟩
    intro before c rest he hc name
    have hlater := hbefore (before ++ [c]) rest (by rw [he, List.append_assoc]; rfl)
    rw [hlater.mem_iff, binding_concat, bindStep_isSome_of_toggle hc, (hbefore before (c :: rest) he).mem_iff]

theorem enable_unknown_stores_null : ∃ d : Dispatcher ℕ ℕ, run (R := ℕ) (D := ℕ) id [] = .ok (new id) ∧
    "a" ∉ (new id : Dispatcher ℕ ℕ).processes ∧ (new id).enableProcess "a" = .error d ∧
    d.processes.lookup "a" = some none ∧ ∃ order, d.IterationOrder order ∧ ∀ data, d.proceed order data = none :=
  ⟨_, rfl, Finmap.notMem_empty, toggleProcess_unknown _ Finmap.notMem_empty, Finmap.lookup_insert _,
    [⟨"a", none⟩], rfl, fun _ => rfl⟩

end CWorkspace.Dispatcher
