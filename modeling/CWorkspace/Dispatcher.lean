import Mathlib.Data.Finmap

/-!
# `Dispatcher` (`cpp/src/utils/dispatcher/Dispatcher.h`)

The `unordered_map` from names to owned process pointers is a `Finmap` with values
`Option Process`, `none` being the null `unique_ptr` that `operator[]` creates. Its iteration order is
not specified: `proceed` takes the order as an argument, any listing of the entries
(`IterationOrder`). What a history of calls says about a name, without the map, is `binding`.
-/

namespace CWorkspace

structure Process (R D : Type*) where
  name : String
  canProceed : D → Bool
  proceed : D → R
  _isEnable : Bool

namespace Process
variable {R D : Type*}

/-- The constructor: a process is born enabled, and only a dispatcher toggles it. -/
def new (name : String) (canProceed : D → Bool) (proceed : D → R) : Process R D :=
  ⟨name, canProceed, proceed, true⟩

def getName (p : Process R D) : String := p.name

def enable (p : Process R D) : Process R D := { p with _isEnable := true }

def disable (p : Process R D) : Process R D := { p with _isEnable := false }

def isEnable (p : Process R D) : Bool := p._isEnable

/-- What `Dispatcher::proceed` asks of a process. -/
def accepts (p : Process R D) (data : D) : Bool := p.isEnable && p.canProceed data

end Process

structure Dispatcher (R D : Type*) where
  processes : Finmap fun _ : String => Option (Process R D)
  noneProcess : D → R

namespace Dispatcher
variable {R D : Type*}

def new (noneProcess : D → R) : Dispatcher R D := ⟨∅, noneProcess⟩

/-- `(*processes)[process->getName()] = process`: the old process of that name is dropped. -/
def addProcess (d : Dispatcher R D) (process : Process R D) : Dispatcher R D :=
  { d with processes := d.processes.insert process.getName (some process) }

/-- `(*processes).emplace(name, LamdaProcess(..))`: an old process of that name stays. -/
def addLamda (d : Dispatcher R D) (name : String) (criteria : D → Bool) (process : D → R) :
    Dispatcher R D :=
  if name ∈ d.processes then d
  else { d with processes := d.processes.insert name (some (Process.new name criteria process)) }

def removeProcess (d : Dispatcher R D) (name : String) : Dispatcher R D :=
  { d with processes := d.processes.erase name }

/-- `(*processes)[name]->toggle()`. The error is a call through the null pointer `operator[]` has just
stored; it carries the store as it is then. -/
def toggleProcess (toggle : Process R D → Process R D) (d : Dispatcher R D) (name : String) :
    Except (Dispatcher R D) (Dispatcher R D) :=
  match d.processes.lookup name with
  | some (some p) => .ok { d with processes := d.processes.insert name (some (toggle p)) }
  | some none => .error d
  | none => .error { d with processes := d.processes.insert name none }

def enableProcess : Dispatcher R D → String → Except (Dispatcher R D) (Dispatcher R D) :=
  toggleProcess Process.enable

def disableProcess : Dispatcher R D → String → Except (Dispatcher R D) (Dispatcher R D) :=
  toggleProcess Process.disable

/-- `order` lists the entries of the map, each once. -/
def IterationOrder (d : Dispatcher R D) (order : List (Sigma fun _ : String => Option (Process R D))) :
    Prop :=
  (order : Multiset (Sigma fun _ : String => Option (Process R D))) = d.processes.entries

/-- `proceed` along an iteration order; `none` is a call through a null pointer. -/
def proceed (d : Dispatcher R D) : List (Sigma fun _ : String => Option (Process R D)) → D → Option R
  | [], data => some (d.noneProcess data)
  | ⟨_, none⟩ :: _, _ => none
  | ⟨_, some process⟩ :: kvs, data =>
    if process.isEnable && process.canProceed data then some (process.proceed data)
    else d.proceed kvs data

/-! ### Histories of calls -/

inductive Call (R D : Type*)
  | addProcess (name : String) (canProceed : D → Bool) (proceed : D → R)
  | addLamda (name : String) (criteria : D → Bool) (process : D → R)
  | removeProcess (name : String)
  | enableProcess (name : String)
  | disableProcess (name : String)

namespace Call

def apply (d : Dispatcher R D) : Call R D → Except (Dispatcher R D) (Dispatcher R D)
  | addProcess name canProceed proceed => .ok (d.addProcess (Process.new name canProceed proceed))
  | addLamda name criteria process => .ok (d.addLamda name criteria process)
  | removeProcess name => .ok (d.removeProcess name)
  | enableProcess name => d.enableProcess name
  | disableProcess name => d.disableProcess name

/-- The flag a call gives to the process `name`, if it toggles it. -/
def toggle? (name : String) : Call R D → Option Bool
  | enableProcess n => if n = name then some true else none
  | disableProcess n => if n = name then some false else none
  | _ => none

end Call

def run (noneProcess : D → R) (calls : List (Call R D)) : Except (Dispatcher R D) (Dispatcher R D) :=
  calls.foldlM Call.apply (new noneProcess)

/-- What is registered under a name: the process, and the calls made since it was bound. -/
structure Binding (R D : Type*) where
  process : Process R D
  since : List (Call R D)

namespace Binding

/-- The last enable / disable of the name since the binding was created is a disable. -/
def disabled (b : Binding R D) (name : String) : Bool :=
  (b.since.filterMap (·.toggle? name)).getLast? = some false

end Binding

/-- One call seen from `name`: a pointer `addProcess` always rebinds, a lambda `addProcess` only a free
name, `removeProcess` unbinds, any other call is remembered. -/
def bindStep (name : String) (b : Option (Binding R D)) (c : Call R D) : Option (Binding R D) :=
  let later := b.map fun b => { b with since := b.since ++ [c] }
  match c with
  | .addProcess n canProceed proceed =>
    if n = name then some ⟨Process.new n canProceed proceed, []⟩ else later
  | .addLamda n criteria process =>
    if n = name ∧ b.isNone then some ⟨Process.new n criteria process, []⟩ else later
  | .removeProcess n => if n = name then none else later
  | .enableProcess _ | .disableProcess _ => later

def binding (calls : List (Call R D)) (name : String) : Option (Binding R D) :=
  calls.foldl (bindStep name) none

/-- Enable and disable only name processes that are registered at that time. -/
def TogglesRegistered (calls : List (Call R D)) : Prop :=
  ∀ before c after name, calls = before ++ c :: after → (c.toggle? name).isSome →
    (binding before name).isSome

theorem TogglesRegistered.of_concat {calls : List (Call R D)} {c : Call R D}
    (h : TogglesRegistered (calls ++ [c])) : TogglesRegistered calls :=
  fun before c' after name hcalls => h before c' (after ++ [c]) name (by simp [hcalls])

theorem run_concat (noneProcess : D → R) (calls : List (Call R D)) (c : Call R D) :
    run noneProcess (calls ++ [c]) = (run noneProcess calls).bind c.apply := by
  rw [run, List.foldlM_append]
  simp only [List.foldlM_cons, List.foldlM_nil, bind_pure]
  rfl

theorem binding_concat (calls : List (Call R D)) (c : Call R D) (name : String) :
    binding (calls ++ [c]) name = bindStep name (binding calls name) c := by
  rw [binding, List.foldl_append]; rfl

/-! ### The map holds the bindings -/

/-- The entry a binding leaves in the map. -/
def Binding.stored (b : Binding R D) (name : String) : Option (Process R D) :=
  some { b.process with _isEnable := !b.disabled name }

/-- The map of `d` is what `calls` says about every name. -/
structure Holds (d : Dispatcher R D) (noneProcess : D → R) (calls : List (Call R D)) : Prop where
  noneProcess_eq : d.noneProcess = noneProcess
  lookup : ∀ name, d.processes.lookup name = (binding calls name).map (·.stored name)

theorem Binding.disabled_concat (b : Binding R D) (name : String) (c : Call R D) :
    (Binding.mk b.process (b.since ++ [c])).disabled name =
      match c.toggle? name with
      | some on => !on
      | none => b.disabled name := by
  rw [disabled, List.filterMap_append]
  cases h : c.toggle? name with
  | none => simp [h, disabled]
  | some on => cases on <;> simp [h]

theorem Binding.stored_concat_of_none (b : Binding R D) (name : String) {c : Call R D}
    (h : c.toggle? name = none) : (Binding.mk b.process (b.since ++ [c])).stored name = b.stored name := by
  simp only [stored, Binding.disabled_concat, h]

theorem map_stored_later (b : Option (Binding R D)) (name : String) {c : Call R D}
    (h : c.toggle? name = none) :
    (b.map fun b => (⟨b.process, b.since ++ [c]⟩ : Binding R D)).map (·.stored name) =
      b.map (·.stored name) := by
  cases b with
  | none => rfl
  | some b => exact congrArg some (b.stored_concat_of_none name h)

namespace Holds
variable {d : Dispatcher R D} {noneProcess : D → R} {calls : List (Call R D)}

theorem mem_iff (h : Holds d noneProcess calls) (name : String) :
    name ∈ d.processes ↔ (binding calls name).isSome := by
  rw [← Finmap.lookup_isSome, h.lookup, Option.isSome_map]

theorem addProcess (h : Holds d noneProcess calls) (name : String) (canProceed : D → Bool)
    (proceed : D → R) : Holds (d.addProcess (Process.new name canProceed proceed)) noneProcess
      (calls ++ [.addProcess name canProceed proceed]) := by
  refine ⟨h.noneProcess_eq, fun n => ?_⟩
  rw [binding_concat, Dispatcher.addProcess, bindStep]
  by_cases hn : name = n
  · subst hn
    rw [if_pos rfl]
    exact Finmap.lookup_insert _
  · rw [if_neg hn, map_stored_later _ _ rfl, ← h.lookup]
    exact Finmap.lookup_insert_of_ne _ (Ne.symm hn)

theorem addLamda (h : Holds d noneProcess calls) (name : String) (criteria : D → Bool)
    (process : D → R) : Holds (d.addLamda name criteria process) noneProcess
      (calls ++ [.addLamda name criteria process]) := by
  refine ⟨?_, fun n => ?_⟩
  · rw [Dispatcher.addLamda]; split_ifs <;> exact h.noneProcess_eq
  rw [binding_concat, Dispatcher.addLamda, bindStep]
  by_cases hmem : name ∈ d.processes
  · -- the occupied name keeps its binding
    have hsome := (h.mem_iff name).1 hmem
    have hnot : ¬ (name = n ∧ (binding calls n).isNone) := by
      rintro ⟨rfl, hnone⟩
      rw [Option.isNone_iff_eq_none.1 hnone] at hsome
      exact absurd hsome (by simp)
    rw [if_pos hmem, if_neg hnot, map_stored_later _ _ rfl, h.lookup]
  · rw [if_neg hmem]
    by_cases hn : name = n
    · subst hn
      have hnone : (binding calls name).isNone := by
        rw [Option.isNone_iff_eq_none, ← Option.not_isSome_iff_eq_none, ← h.mem_iff]; exact hmem
      rw [if_pos ⟨rfl, hnone⟩]
      exact Finmap.lookup_insert _
    · rw [if_neg (fun hc => hn hc.1), map_stored_later _ _ rfl, ← h.lookup]
      exact Finmap.lookup_insert_of_ne _ (Ne.symm hn)

theorem removeProcess (h : Holds d noneProcess calls) (name : String) :
    Holds (d.removeProcess name) noneProcess (calls ++ [.removeProcess name]) := by
  refine ⟨h.noneProcess_eq, fun n => ?_⟩
  rw [binding_concat, Dispatcher.removeProcess, bindStep]
  by_cases hn : name = n
  · subst hn
    rw [if_pos rfl]
    exact Finmap.lookup_erase _ _
  · rw [if_neg hn, map_stored_later _ _ rfl, ← h.lookup]
    exact Finmap.lookup_erase_ne (Ne.symm hn)

theorem toggleProcess (h : Holds d noneProcess calls) {name : String} {c : Call R D} {on : Bool}
    (hc : ∀ n, c.toggle? n = if name = n then some on else none)
    (hstep : ∀ n b, bindStep n b c = b.map fun b => { b with since := b.since ++ [c] })
    (hreg : (binding calls name).isSome) :
    ∃ d', Dispatcher.toggleProcess (fun p => { p with _isEnable := on }) d name = .ok d' ∧
      Holds d' noneProcess (calls ++ [c]) := by
  obtain ⟨b, hb⟩ := Option.isSome_iff_exists.1 hreg
  have hl := h.lookup name
  rw [hb] at hl
  simp only [Dispatcher.toggleProcess, hl, Option.map_some, Binding.stored]
  refine ⟨_, rfl, h.noneProcess_eq, fun n => ?_⟩
  rw [binding_concat, hstep]
  by_cases hn : name = n
  · subst hn
    rw [hb, Option.map_some, Option.map_some, Binding.stored, Binding.disabled_concat, hc, if_pos rfl]
    simp only [Bool.not_not]
    exact Finmap.lookup_insert _
  · rw [map_stored_later _ _ (by rw [hc, if_neg hn]), ← h.lookup]
    exact Finmap.lookup_insert_of_ne _ (Ne.symm hn)

theorem apply (h : Holds d noneProcess calls) (c : Call R D)
    (hreg : ∀ name, (c.toggle? name).isSome → (binding calls name).isSome) :
    ∃ d', c.apply d = .ok d' ∧ Holds d' noneProcess (calls ++ [c]) := by
  cases c with
  | addProcess name canProceed proceed => exact ⟨_, rfl, h.addProcess name canProceed proceed⟩
  | addLamda name criteria process => exact ⟨_, rfl, h.addLamda name criteria process⟩
  | removeProcess name => exact ⟨_, rfl, h.removeProcess name⟩
  | enableProcess name =>
    exact h.toggleProcess (fun _ => rfl) (fun _ _ => rfl) (hreg name (by simp [Call.toggle?]))
  | disableProcess name =>
    exact h.toggleProcess (fun _ => rfl) (fun _ _ => rfl) (hreg name (by simp [Call.toggle?]))

end Holds

/-- A run that only toggles registered processes dereferences no null pointer, and its map holds the
bindings of the history. -/
theorem run_holds (noneProcess : D → R) (calls : List (Call R D)) (h : TogglesRegistered calls) :
    ∃ d, run noneProcess calls = .ok d ∧ Holds d noneProcess calls := by
  induction calls using List.reverseRecOn with
  | nil => exact ⟨_, rfl, rfl, fun _ => rfl⟩
  | append_singleton calls c ih =>
    obtain ⟨d, hd, hh⟩ := ih h.of_concat
    obtain ⟨d', hd', hh'⟩ := hh.apply c fun name => h calls c [] name rfl
    exact ⟨d', by rw [run_concat, hd]; exact hd', hh'⟩

/-! ### `proceed` -/

theorem proceed_cons_some (d : Dispatcher R D) (name : String) (p : Process R D)
    (kvs : List (Sigma fun _ : String => Option (Process R D))) (data : D) :
    d.proceed (⟨name, some p⟩ :: kvs) data =
      if p.accepts data then some (p.proceed data) else d.proceed kvs data := rfl

theorem proceed_cases (d : Dispatcher R D) (order : List (Sigma fun _ : String => Option (Process R D)))
    (hnn : ∀ kv ∈ order, kv.2.isSome) (data : D) :
    (∃ name p, ⟨name, some p⟩ ∈ order ∧ p.accepts data ∧ d.proceed order data = some (p.proceed data)) ∨
    ((∀ name p, ⟨name, some p⟩ ∈ order → p.accepts data = false) ∧
      d.proceed order data = some (d.noneProcess data)) := by
  induction order with
  | nil => exact .inr ⟨by simp, rfl⟩
  | cons kv kvs ih =>
    obtain ⟨n, q⟩ := kv
    obtain ⟨q, rfl⟩ := Option.isSome_iff_exists.1 (hnn ⟨n, q⟩ (by simp))
    rw [proceed_cons_some]
    by_cases hq : q.accepts data
    · exact .inl ⟨n, q, by simp, hq, if_pos hq⟩
    rw [if_neg hq]
    rcases ih fun kv hkv => hnn kv (by simp [hkv]) with ⟨name, p, hp, hacc, heq⟩ | ⟨hno, heq⟩
    · exact .inl ⟨name, p, by simp [hp], hacc, heq⟩
    · refine .inr ⟨fun name p hp => ?_, heq⟩
      rcases List.mem_cons.1 hp with h | h
      · cases h; exact Bool.eq_false_iff.2 hq
      · exact hno name p h

namespace Holds
variable {d : Dispatcher R D} {noneProcess : D → R} {calls : List (Call R D)}

theorem mem_order_iff (h : Holds d noneProcess calls)
    {order : List (Sigma fun _ : String => Option (Process R D))} (ho : d.IterationOrder order)
    (name : String) (v : Option (Process R D)) :
    ⟨name, v⟩ ∈ order ↔ ∃ b, binding calls name = some b ∧ v = b.stored name := by
  rw [← Multiset.mem_coe, ho, ← Finmap.lookup_eq_some_iff, h.lookup, Option.map_eq_some_iff]
  exact exists_congr fun b => and_congr_right fun _ => eq_comm

theorem order_nonnull (h : Holds d noneProcess calls)
    {order : List (Sigma fun _ : String => Option (Process R D))} (ho : d.IterationOrder order) :
    ∀ kv ∈ order, kv.2.isSome := by
  rintro ⟨name, v⟩ hkv
  obtain ⟨b, -, rfl⟩ := (h.mem_order_iff ho name v).1 hkv
  rfl

end Holds

/-- After any run that only toggles registered processes, and for any iteration order, `proceed`
answers with a registered, enabled process that accepts the data if there is one, and with
`noneProcess` otherwise. -/
theorem proceed_dispatches (noneProcess : D → R) (calls : List (Call R D))
    (h : TogglesRegistered calls) :
    ∃ d, run noneProcess calls = .ok d ∧ ∀ order, d.IterationOrder order → ∀ data,
      (∃ name b, binding calls name = some b ∧ b.disabled name = false ∧ b.process.canProceed data ∧
        d.proceed order data = some (b.process.proceed data)) ∨
      ((∀ name b, binding calls name = some b → b.disabled name = false →
        b.process.canProceed data = false) ∧ d.proceed order data = some (noneProcess data)) := by
  obtain ⟨d, hd, hh⟩ := run_holds noneProcess calls h
  refine ⟨d, hd, fun order ho data => ?_⟩
  rcases d.proceed_cases order (hh.order_nonnull ho) data with ⟨name, p, hp, hacc, heq⟩ | ⟨hno, heq⟩
  · obtain ⟨b, hb, hpb⟩ := (hh.mem_order_iff ho name _).1 hp
    cases hpb
    obtain ⟨hen, hcan⟩ := Bool.and_eq_true_iff.1 hacc
    exact .inl ⟨name, b, hb, by simpa [Process.isEnable] using hen, hcan, heq⟩
  · refine .inr ⟨fun name b hb hdis => ?_, by rw [heq, hh.noneProcess_eq]⟩
    have := hno name _ ((hh.mem_order_iff ho name _).2 ⟨b, hb, rfl⟩)
    simpa [Process.accepts, Process.isEnable, hdis] using this

theorem proceed_dispatches_toggled : ∃ d, run (R := ℕ) (D := ℕ) id
      [.addLamda "a" (· < 5) (· + 1), .disableProcess "a"] = .ok d ∧
    ∀ order, d.IterationOrder order → ∀ data,
      (∃ name b, binding [.addLamda "a" (· < 5) (· + 1), .disableProcess "a"] name = some b ∧
        b.disabled name = false ∧ b.process.canProceed data ∧
        d.proceed order data = some (b.process.proceed data)) ∨
      ((∀ name b, binding [.addLamda "a" (· < 5) (· + 1), .disableProcess "a"] name = some b →
        b.disabled name = false → b.process.canProceed data = false) ∧
        d.proceed order data = some (id data)) :=
  proceed_dispatches id _ (by
    intro before c after name hcalls hc
    match before with
    | [] => cases hcalls; cases hc
    | [_] =>
      cases hcalls
      by_cases hn : "a" = name
      · subst hn; rfl
      · simp [Call.toggle?, hn] at hc
    | _ :: _ :: before => simp at hcalls)

/-! ### Registering in another order -/

def Call.added? : Call R D → Option (Process R D)
  | addProcess name canProceed proceed => some (Process.new name canProceed proceed)
  | addLamda name criteria process => some (Process.new name criteria process)
  | _ => none

/-- `calls` only registers processes, under pairwise distinct names. -/
structure Registers (calls : List (Call R D)) : Prop where
  added : ∀ c ∈ calls, c.added?.isSome
  nodup : ((calls.filterMap Call.added?).map Process.getName).Nodup

theorem Registers.perm {calls calls' : List (Call R D)} (h : Registers calls) (hp : calls'.Perm calls) :
    Registers calls' :=
  ⟨fun c hc => h.added c (hp.mem_iff.1 hc), ((hp.filterMap _).map _).nodup_iff.2 h.nodup⟩

theorem Registers.of_concat {calls : List (Call R D)} {c : Call R D} (h : Registers (calls ++ [c])) :
    Registers calls := by
  refine ⟨fun c' hc' => h.added c' (by simp [hc']), ?_⟩
  have := h.nodup
  rw [List.filterMap_append, List.map_append] at this
  exact this.of_append_left

theorem Call.toggle?_of_added {c : Call R D} (h : c.added?.isSome) (name : String) :
    c.toggle? name = none := by
  cases c <;> first | rfl | exact absurd h (by simp [added?])

theorem Registers.toggles {calls : List (Call R D)} (h : Registers calls) : TogglesRegistered calls := by
  intro before c after name hcalls hc
  rw [Call.toggle?_of_added (h.added c (by simp [hcalls]))] at hc
  exact absurd hc (by simp)

/-- On a free name the two overloads bind alike; another name only remembers the call. -/
theorem bindStep_of_added {c : Call R D} {q : Process R D} (h : c.added? = some q) (name : String)
    (b : Option (Binding R D)) (hfree : q.getName = name → b = none) :
    bindStep name b c = if q.getName = name then some ⟨q, []⟩
      else b.map fun b => { b with since := b.since ++ [c] } := by
  cases c with
  | addProcess n canProceed proceed => cases h; rfl
  | addLamda n criteria process =>
    cases h
    by_cases hn : n = name
    · simp [bindStep, Process.getName, Process.new, hn, hfree hn]
    · simp [bindStep, Process.getName, Process.new, hn]
  | removeProcess | enableProcess | disableProcess => cases h

theorem Registers.binding_spec {calls : List (Call R D)} (h : Registers calls) :
    (∀ p ∈ calls.filterMap Call.added?, ∃ b, binding calls p.getName = some b ∧
      b.stored p.getName = some p) ∧
    ∀ name, name ∉ (calls.filterMap Call.added?).map Process.getName → binding calls name = none := by
  induction calls using List.reverseRecOn with
  | nil => exact ⟨by simp, fun _ _ => rfl⟩
  | append_singleton calls c ih =>
    obtain ⟨hadded, hnone⟩ := ih h.of_concat
    have hc := h.added c (by simp)
    obtain ⟨q, hq⟩ := Option.isSome_iff_exists.1 hc
    have hnodup := h.nodup
    have hlist : (calls ++ [c]).filterMap Call.added? = calls.filterMap Call.added? ++ [q] := by
      simp [List.filterMap_append, hq]
    rw [hlist, List.map_append, List.map_singleton, List.nodup_append_comm, List.singleton_append,
      List.nodup_cons] at hnodup
    have hfree := hnone q.getName hnodup.1
    have hstep : ∀ name, binding (calls ++ [c]) name = if q.getName = name then some ⟨q, []⟩
        else (binding calls name).map fun b => { b with since := b.since ++ [c] } := fun name => by
      rw [binding_concat, bindStep_of_added hq name _ (fun hn => hn ▸ hfree)]
    rw [hlist]
    constructor
    · intro p hp
      rcases List.mem_append.1 hp with hp | hp
      · have hne : q.getName ≠ p.getName := fun hn => hnodup.1 (hn ▸ List.mem_map_of_mem hp)
        obtain ⟨b, hb, hbp⟩ := hadded p hp
        refine ⟨⟨b.process, b.since ++ [c]⟩, by rw [hstep, if_neg hne, hb]; rfl, ?_⟩
        rw [b.stored_concat_of_none _ (Call.toggle?_of_added hc _), hbp]
      · cases List.mem_singleton.1 hp
        refine ⟨⟨q, []⟩, by rw [hstep, if_pos rfl], ?_⟩
        cases c <;> cases hq <;> rfl
    · intro name hname
      rw [List.map_append, List.mem_append, not_or, List.map_singleton, List.mem_singleton] at hname
      rw [hstep, if_neg (Ne.symm hname.2), hnone name hname.1]
      rfl

theorem Registers.mem_order_iff {d : Dispatcher R D} {noneProcess : D → R} {calls : List (Call R D)}
    (h : Registers calls) (hh : Holds d noneProcess calls)
    {order : List (Sigma fun _ : String => Option (Process R D))} (ho : d.IterationOrder order)
    (name : String) (v : Option (Process R D)) :
    ⟨name, v⟩ ∈ order ↔ ∃ p ∈ calls.filterMap Call.added?, p.getName = name ∧ v = some p := by
  obtain ⟨hadded, hnone⟩ := h.binding_spec
  rw [hh.mem_order_iff ho]
  constructor
  · rintro ⟨b, hb, rfl⟩
    by_contra hno
    have hmem : name ∈ (calls.filterMap Call.added?).map Process.getName := by
      by_contra hmem
      rw [hnone name hmem] at hb
      cases hb
    obtain ⟨p, hp, rfl⟩ := List.mem_map.1 hmem
    obtain ⟨b', hb', hbp⟩ := hadded p hp
    rw [hb] at hb'
    cases hb'
    exact hno ⟨p, hp, rfl, hbp⟩
  · rintro ⟨p, hp, rfl, rfl⟩
    obtain ⟨b, hb, hbp⟩ := hadded p hp
    exact ⟨b, hb, hbp.symm⟩

theorem accepts_of_added {calls : List (Call R D)} {p : Process R D}
    (hp : p ∈ calls.filterMap Call.added?) (data : D) : p.accepts data = p.canProceed data := by
  obtain ⟨c, -, hc⟩ := List.mem_filterMap.1 hp
  cases c <;> cases hc <;> rfl

theorem proceed_of_head (d : Dispatcher R D) (name : String) {p : Process R D} {data : D}
    (hp : p.accepts data) (kvs : List (Sigma fun _ : String => Option (Process R D))) :
    d.proceed (⟨name, some p⟩ :: kvs) data = some (p.proceed data) := by
  rw [proceed_cons_some, if_pos hp]

/-- `proceed` gives one and the same result for every order of registering processes of distinct names
and every iteration order, exactly when all processes that accept the data give the same result. -/
theorem order_independent_iff (noneProcess : D → R) (calls : List (Call R D)) (h : Registers calls)
    (data : D) :
    (∀ calls' : List (Call R D), calls'.Perm calls → ∀ d d', run noneProcess calls = .ok d →
      run noneProcess calls' = .ok d' → ∀ order order', d.IterationOrder order →
      d'.IterationOrder order' → d.proceed order data = d'.proceed order' data) ↔
    ∀ p ∈ calls.filterMap Call.added?, ∀ q ∈ calls.filterMap Call.added?,
      p.canProceed data → q.canProceed data → p.proceed data = q.proceed data := by
  obtain ⟨d, hd, hh⟩ := run_holds noneProcess calls h.toggles
  constructor
  · intro hind p hp q hq hpd hqd
    -- one iteration order puts `p` first, another `q`
    have first : ∀ r ∈ calls.filterMap Call.added?, r.canProceed data →
        ∃ order, d.IterationOrder order ∧ d.proceed order data = some (r.proceed data) := by
      intro r hr hrd
      obtain ⟨order, ho⟩ := Quot.exists_rep d.processes.entries
      have hmem := (h.mem_order_iff hh ho r.getName (some r)).2 ⟨r, hr, rfl, rfl⟩
      obtain ⟨l₁, l₂, rfl⟩ := List.append_of_mem hmem
      refine ⟨⟨r.getName, some r⟩ :: (l₁ ++ l₂), ?_, ?_⟩
      · exact (Multiset.coe_eq_coe.2 List.perm_middle.symm).trans ho
      · exact d.proceed_of_head _ (by rw [accepts_of_added hr]; exact hrd) _
    obtain ⟨order, ho, heq⟩ := first p hp hpd
    obtain ⟨order', ho', heq'⟩ := first q hq hqd
    have := hind calls (List.Perm.refl _) d d hd hd order order' ho ho'
    rw [heq, heq'] at this
    exact Option.some.inj this
  · intro hsame calls' hperm d₁ d' hd₁ hd' order order' ho ho'
    rw [hd] at hd₁
    cases hd₁
    obtain ⟨d'', hd'', hh'⟩ := run_holds noneProcess calls' (h.perm hperm).toggles
    rw [hd'] at hd''
    cases hd''
    have hmem : ∀ p, p ∈ calls'.filterMap Call.added? ↔ p ∈ calls.filterMap Call.added? :=
      fun p => (hperm.filterMap _).mem_iff
    have hiff : ∀ name p, ⟨name, some p⟩ ∈ order ↔ ⟨name, some p⟩ ∈ order' := fun name p => by
      rw [h.mem_order_iff hh ho, (h.perm hperm).mem_order_iff hh' ho']
      simp only [hmem]
    have hadd : ∀ name p, ⟨name, some p⟩ ∈ order → p ∈ calls.filterMap Call.added? := by
      intro name p hp
      obtain ⟨p', hp', -, heq⟩ := (h.mem_order_iff hh ho name _).1 hp
      exact Option.some.inj heq ▸ hp'
    rcases d.proceed_cases order (hh.order_nonnull ho) data with ⟨n, p, hp, hacc, heq⟩ | ⟨hno, heq⟩ <;>
      rcases d'.proceed_cases order' (hh'.order_nonnull ho') data with
        ⟨n', p', hp', hacc', heq'⟩ | ⟨hno', heq'⟩ <;> rw [heq, heq']
    · have hpa := hadd n p hp
      have hpa' := hadd n' p' ((hiff n' p').2 hp')
      rw [accepts_of_added hpa] at hacc
      rw [accepts_of_added hpa'] at hacc'
      rw [hsame p hpa p' hpa' hacc hacc']
    · rw [hno' n p ((hiff n p).1 hp)] at hacc; cases hacc
    · rw [hno n' p' ((hiff n' p').2 hp')] at hacc'; cases hacc'
    · rw [hh.noneProcess_eq, hh'.noneProcess_eq]

theorem order_independent_iff_disjoint :
    Registers (R := ℕ) (D := ℕ) [.addLamda "a" (· < 5) id, .addProcess "b" (5 ≤ ·) (· + 1)] ∧
    ∀ calls' : List (Call ℕ ℕ), calls'.Perm [.addLamda "a" (· < 5) id, .addProcess "b" (5 ≤ ·) (· + 1)] →
      ∀ d d', run id [.addLamda "a" (· < 5) id, .addProcess "b" (5 ≤ ·) (· + 1)] = .ok d →
      run id calls' = .ok d' → ∀ order order', d.IterationOrder order →
      d'.IterationOrder order' → d.proceed order 7 = d'.proceed order' 7 := by
  have hcalls : Registers (R := ℕ) (D := ℕ) [.addLamda "a" (· < 5) id, .addProcess "b" (5 ≤ ·) (· + 1)] :=
    ⟨by simp [Call.added?], by decide⟩
  refine ⟨hcalls, (order_independent_iff id _ hcalls 7).2 fun p hp q hq hp7 hq7 => ?_⟩
  have hb : ∀ p ∈ ([.addLamda "a" (· < 5) id, .addProcess "b" (5 ≤ ·) (· + 1)] : List (Call ℕ ℕ)).filterMap
      Call.added?, p.canProceed 7 → p.proceed 7 = 8 := by
    intro p hp hp7
    rcases List.mem_pair.1 hp with rfl | rfl
    · cases hp7
    · rfl
  rw [hb p hp hp7, hb q hq hq7]

theorem two_acceptors_answer_by_order : ∃ (d : Dispatcher ℕ ℕ) (order order' : _),
    Registers (R := ℕ) (D := ℕ) [.addLamda "a" (fun _ => true) (· + 1), .addLamda "b" (fun _ => true) (· + 2)] ∧
    run id [.addLamda "a" (fun _ => true) (· + 1), .addLamda "b" (fun _ => true) (· + 2)] = .ok d ∧
    d.IterationOrder order ∧ d.IterationOrder order' ∧
    d.proceed order 0 = some 1 ∧ d.proceed order' 0 = some 2 :=
  ⟨((new id).addLamda "a" (fun _ => true) (· + 1)).addLamda "b" (fun _ => true) (· + 2),
    [⟨"a", some (Process.new "a" (fun _ => true) (· + 1))⟩, ⟨"b", some (Process.new "b" (fun _ => true) (· + 2))⟩],
    [⟨"b", some (Process.new "b" (fun _ => true) (· + 2))⟩, ⟨"a", some (Process.new "a" (fun _ => true) (· + 1))⟩],
    ⟨by simp [Call.added?], by decide⟩, rfl, Multiset.coe_eq_coe.2 (List.Perm.swap _ _ _), rfl, rfl, rfl⟩

end Dispatcher

end CWorkspace
