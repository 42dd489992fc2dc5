import CWorkspace.Dispatcher.Toggles
import CWorkspace.Lib.Machine
import Mathlib.Data.Option.Basic

/-!
# The two `addProcess`

The one that takes a pointer assigns through `operator[]`, the one that takes two lambdas goes through
`emplace`, which ignores a name that is bound. Nothing that happens later tells the two states apart exactly
if the name was free, or bound to a process that does the same (`overloads_agree_iff`). What is compared is
`proceed` along the same names in the same order: both maps have gone through the same insertions.
-/

namespace CWorkspace
variable {R D : Type*}

/-- The two do the same on every data, now and after any toggles; with at most one result all do. -/
def Process.Alike (p q : Process R D) : Prop :=
  Subsingleton R ∨ ∀ data, p.canProceed data = q.canProceed data ∧
    (p.canProceed data → p._isEnable = q._isEnable ∧ p.proceed data = q.proceed data)

namespace Process

theorem Alike.refl (p : Process R D) : p.Alike p := .inr fun _ => ⟨rfl, fun _ => ⟨rfl, rfl⟩⟩

theorem Alike.toggle {p q : Process R D} (h : p.Alike q) (on : Bool) :
    Process.Alike { p with _isEnable := on } { q with _isEnable := on } :=
  h.imp_right fun h data => ⟨(h data).1, fun hp => ⟨rfl, ((h data).2 hp).2⟩⟩

theorem Alike.answer {p q : Process R D} (h : p.Alike q) (data : D) (rest : R) :
    (if p.accepts data then p.proceed data else rest) = if q.accepts data then q.proceed data else rest := by
  rcases h with hR | h
  · exact Subsingleton.elim _ _
  obtain ⟨hcan, hsame⟩ := h data
  cases hp : p.canProceed data with
  | false => simp [accepts, ← hcan, hp]
  | true =>
    obtain ⟨hen, hproceed⟩ := hsame hp
    simp only [accepts, isEnable, ← hcan, ← hen, hproceed]

end Process

namespace Dispatcher

open Machine

/-- `proceed` gives the same result on every data, along any order in which the maps list their names. -/
def SameAnswers (d d' : Dispatcher R D) : Prop :=
  ∀ order order', d.IterationOrder order → d'.IterationOrder order' →
    order.map Sigma.fst = order'.map Sigma.fst → ∀ data, d.proceed order data = d'.proceed order' data

def AlikeValues (v v' : Option (Process R D)) : Prop := ∃ p q, v = some p ∧ v' = some q ∧ p.Alike q

structure Alike (d d' : Dispatcher R D) : Prop where
  noneProcess_eq : d.noneProcess = d'.noneProcess
  lookup : ∀ name, Option.Rel AlikeValues (d.processes.lookup name) (d'.processes.lookup name)

/-! ### Every call keeps states alike -/

namespace Alike
variable {d d' : Dispatcher R D}

theorem cases (h : Alike d d') (name : String) :
    (d.processes.lookup name = none ∧ d'.processes.lookup name = none) ∨
    ∃ p q, d.processes.lookup name = some (some p) ∧ d'.processes.lookup name = some (some q) ∧ p.Alike q := by
  have hl := h.lookup name
  generalize d.processes.lookup name = v at hl ⊢
  generalize d'.processes.lookup name = v' at hl ⊢
  cases hl with
  | none => exact .inl ⟨rfl, rfl⟩
  | some hv =>
    obtain ⟨p, q, rfl, rfl, hpq⟩ := hv
    exact .inr ⟨p, q, rfl, rfl, hpq⟩

theorem mem_iff (h : Alike d d') (name : String) : name ∈ d.processes ↔ name ∈ d'.processes := by
  rw [← Finmap.lookup_isSome, ← Finmap.lookup_isSome]
  rcases h.cases name with ⟨hd, hd'⟩ | ⟨p, q, hd, hd', -⟩
  all_goals simp [hd, hd']

theorem insert (h : Alike d d') (name : String) {p q : Process R D} (hpq : p.Alike q) :
    Alike { d with processes := d.processes.insert name (some p) }
      { d' with processes := d'.processes.insert name (some q) } := by
  refine ⟨h.noneProcess_eq, fun n => ?_⟩
  by_cases hn : n = name
  · subst hn
    rw [Finmap.lookup_insert, Finmap.lookup_insert]
    exact .some ⟨p, q, rfl, rfl, hpq⟩
  · rw [Finmap.lookup_insert_of_ne _ hn, Finmap.lookup_insert_of_ne _ hn]
    exact h.lookup n

theorem erase (h : Alike d d') (name : String) : Alike (d.removeProcess name) (d'.removeProcess name) := by
  refine ⟨h.noneProcess_eq, fun n => ?_⟩
  rw [removeProcess, removeProcess]
  by_cases hn : n = name
  · subst hn
    rw [Finmap.lookup_erase, Finmap.lookup_erase]
    exact .none
  · rw [Finmap.lookup_erase_ne hn, Finmap.lookup_erase_ne hn]
    exact h.lookup n

theorem toggleProcess (h : Alike d d') (name : String) (on : Bool) :
    Both Alike (Dispatcher.toggleProcess (fun p => { p with _isEnable := on }) d name)
      (Dispatcher.toggleProcess (fun p => { p with _isEnable := on }) d' name) := by
  rcases h.cases name with ⟨hd, hd'⟩ | ⟨p, q, hd, hd', hpq⟩
  · simp only [Dispatcher.toggleProcess, hd, hd']
    exact .inr ⟨_, _, rfl, rfl⟩
  · simp only [Dispatcher.toggleProcess, hd, hd']
    exact .inl ⟨_, _, rfl, rfl, h.insert name (hpq.toggle on)⟩

theorem addLamda (h : Alike d d') (name : String) (criteria : D → Bool) (process : D → R) :
    Alike (d.addLamda name criteria process) (d'.addLamda name criteria process) := by
  rw [Dispatcher.addLamda, Dispatcher.addLamda, if_congr (h.mem_iff name) rfl rfl]
  split_ifs
  · exact h
  · exact h.insert name (Process.Alike.refl _)

theorem bisim : Bisim Call.apply (Alike (R := R) (D := D)) := by
  intro d d' h c
  cases c with
  | addProcess name canProceed proceed => exact .inl ⟨_, _, rfl, rfl, h.insert name (Process.Alike.refl _)⟩
  | addLamda name criteria process => exact .inl ⟨_, _, rfl, rfl, h.addLamda name criteria process⟩
  | removeProcess name => exact .inl ⟨_, _, rfl, rfl, h.erase name⟩
  | enableProcess name => exact h.toggleProcess name true
  | disableProcess name => exact h.toggleProcess name false

end Alike

theorem Holds.alike {d : Dispatcher R D} {noneProcess : D → R} {calls : List (Call R D)}
    (h : Holds d noneProcess calls) : Alike d d := by
  refine ⟨rfl, fun name => ?_⟩
  rw [h.lookup]
  cases binding calls name with
  | none => exact .none
  | some b => exact .some ⟨_, _, rfl, rfl, Process.Alike.refl _⟩

/-! ### Alike states answer alike -/

theorem proceed_cons_of_rest (d : Dispatcher R D) (name : String) (p : Process R D)
    {kvs : List (Sigma fun _ : String => Option (Process R D))} {data : D} {rest : R}
    (h : d.proceed kvs data = some rest) :
    d.proceed (⟨name, some p⟩ :: kvs) data = some (if p.accepts data then p.proceed data else rest) := by
  rw [proceed_cons_some, h]
  split_ifs <;> rfl

/-- Alike states answer alike, and do answer, along any listings of entries with the same names. -/
theorem Alike.proceed {d d' : Dispatcher R D} (h : Alike d d')
    {order order' : List (Sigma fun _ : String => Option (Process R D))}
    (ho : ∀ kv ∈ order, d.processes.lookup kv.1 = some kv.2)
    (ho' : ∀ kv ∈ order', d'.processes.lookup kv.1 = some kv.2)
    (hnames : order.map Sigma.fst = order'.map Sigma.fst) (data : D) :
    ∃ r, d.proceed order data = some r ∧ d'.proceed order' data = some r := by
  induction order generalizing order' with
  | nil =>
    rw [List.map_nil, eq_comm, List.map_eq_nil_iff] at hnames
    subst hnames
    exact ⟨_, rfl, congrArg some (congrFun h.noneProcess_eq.symm data)⟩
  | cons kv order ih =>
    obtain ⟨n, v⟩ := kv
    rw [List.map_cons, eq_comm, List.map_eq_cons_iff] at hnames
    obtain ⟨⟨n', v'⟩, order', rfl, hn, hnames⟩ := hnames
    obtain rfl : n' = n := hn
    obtain ⟨r, hr, hr'⟩ := ih (fun kv hkv => ho kv (List.mem_cons_of_mem _ hkv))
      (fun kv hkv => ho' kv (List.mem_cons_of_mem _ hkv)) hnames.symm
    have hv := ho _ List.mem_cons_self
    have hv' := ho' _ List.mem_cons_self
    rcases h.cases n' with ⟨hnone, -⟩ | ⟨p, q, hp, hq, hpq⟩
    · rw [hnone] at hv; cases hv
    · rw [hp] at hv
      rw [hq] at hv'
      obtain rfl := Option.some.inj hv
      obtain rfl := Option.some.inj hv'
      refine ⟨_, proceed_cons_of_rest d n' p hr, ?_⟩
      rw [Process.Alike.answer hpq]
      exact proceed_cons_of_rest d' n' q hr'

theorem IterationOrder.lookup {d : Dispatcher R D}
    {order : List (Sigma fun _ : String => Option (Process R D))} (ho : d.IterationOrder order) :
    ∀ kv ∈ order, d.processes.lookup kv.1 = some kv.2 := by
  intro kv hkv
  rw [Finmap.lookup_eq_some_iff, ← ho]
  exact Multiset.mem_coe.2 hkv

theorem Alike.sameAnswers {d d' : Dispatcher R D} (h : Alike d d') : SameAnswers d d' := by
  intro order order' ho ho' hnames data
  obtain ⟨r, hr, hr'⟩ := h.proceed ho.lookup ho'.lookup hnames data
  rw [hr, hr']

def listing (d : Dispatcher R D) (names : List String) :
    List (Sigma fun _ : String => Option (Process R D)) :=
  names.filterMap fun name => (d.processes.lookup name).map (⟨name, ·⟩)

theorem listing_cons {d : Dispatcher R D} {name : String} {v : Option (Process R D)}
    (h : d.processes.lookup name = some v) (names : List String) :
    d.listing (name :: names) = ⟨name, v⟩ :: d.listing names := by
  rw [listing, List.filterMap_cons, h]; rfl

theorem listing_names (d : Dispatcher R D) (names : List String) (h : ∀ name ∈ names, name ∈ d.processes) :
    (d.listing names).map Sigma.fst = names := by
  induction names with
  | nil => rfl
  | cons name names ih =>
    obtain ⟨v, hv⟩ := Option.isSome_iff_exists.1 (Finmap.lookup_isSome.2 (h name List.mem_cons_self))
    rw [listing_cons hv, List.map_cons, ih fun n hn => h n (List.mem_cons_of_mem _ hn)]

theorem listing_iterationOrder (d : Dispatcher R D) {names : List String} (hnodup : names.Nodup)
    (h : ∀ name, name ∈ names ↔ name ∈ d.processes) : d.IterationOrder (d.listing names) := by
  have hn := d.listing_names names fun name => (h name).1
  have hlist : (d.listing names).Nodup := List.Nodup.of_map Sigma.fst (by rwa [hn])
  refine (Multiset.Nodup.ext (Multiset.coe_nodup.2 hlist) d.processes.nodup_entries).2 fun kv => ?_
  rw [← Finmap.lookup_eq_some_iff, Multiset.mem_coe, listing, List.mem_filterMap]
  constructor
  · rintro ⟨name, -, hname⟩
    obtain ⟨v, hv, rfl⟩ := Option.map_eq_some_iff.1 hname
    exact hv
  · intro hkv
    exact ⟨kv.1, (h kv.1).2 (Finmap.lookup_isSome.1 (by rw [hkv]; rfl)), by rw [hkv]; rfl⟩

/-- A process that accepts everything, added after `name`, shows what the two bindings of `name` make of its
answer. -/
theorem answers_of_alikeForever {d d' : Dispatcher R D} (h : AlikeForever Call.apply SameAnswers d d')
    (hmem : ∀ n, n ∈ d.processes ↔ n ∈ d'.processes) {name : String} {p q : Process R D}
    (hp : d.processes.lookup name = some (some p)) (hq : d'.processes.lookup name = some (some q))
    (data : D) (v : R) :
    (if p.accepts data then p.proceed data else v) = if q.accepts data then q.proceed data else v := by
  obtain ⟨z, hz⟩ : ∃ z, z ≠ name := ⟨name ++ "'", by simp⟩
  have hnow := (h.next (c := .addProcess z (fun _ => true) fun _ => v) rfl rfl).now
  generalize hpz : (Process.new z (fun _ => true) fun _ => v : Process R D) = pz at hnow
  have hlast : ∀ (d : Dispatcher R D) kvs, d.proceed (⟨z, some pz⟩ :: kvs) data = some v := by
    rintro d kvs
    subst hpz
    rfl
  -- both maps list `name`, then `z`, then whatever else there is
  let names := name :: z :: d.processes.keys.toList.filter (· ∉ [name, z])
  have hnodup : names.Nodup := by
    refine List.nodup_cons.2 ⟨by simp [hz.symm], List.nodup_cons.2 ⟨by simp, ?_⟩⟩
    exact (Finset.nodup_toList _).filter _
  have hnames : ∀ n, n ∈ names ↔ n ∈ (d.addProcess pz).processes := by
    intro n
    have hname : name ∈ d.processes := Finmap.lookup_isSome.1 (by rw [hp]; rfl)
    subst hpz
    simp only [names, addProcess, Process.getName, Process.new, Finmap.mem_insert, List.mem_cons,
      List.mem_filter, Finset.mem_toList, Finmap.mem_keys]
    grind
  have hnames' : ∀ n, n ∈ names ↔ n ∈ (d'.addProcess pz).processes := by
    intro n
    rw [hnames, addProcess, addProcess, Finmap.mem_insert, Finmap.mem_insert, hmem]
  have hsame := hnow _ _ (listing_iterationOrder _ hnodup hnames) (listing_iterationOrder _ hnodup hnames')
    (by rw [listing_names _ _ fun n => (hnames n).1, listing_names _ _ fun n => (hnames' n).1]) data
  have hkept : ∀ {d : Dispatcher R D} {p : Process R D}, d.processes.lookup name = some (some p) →
      (d.addProcess pz).proceed ((d.addProcess pz).listing names) data =
        some (if p.accepts data then p.proceed data else v) := by
    intro d p hp
    have hpz' : pz.getName = z := by rw [← hpz]; rfl
    rw [listing_cons (v := some p), listing_cons (v := some pz)]
    · exact proceed_cons_of_rest _ name p (hlast _ _)
    · rw [addProcess, hpz']; exact Finmap.lookup_insert _
    · rw [addProcess, hpz', Finmap.lookup_insert_of_ne _ hz.symm]; exact hp
  rw [hkept hp, hkept hq] at hsame
  exact Option.some.inj hsame

/-! ### The two overloads -/

theorem toggleProcess_ok (toggle : Process R D → Process R D) {d : Dispatcher R D} {name : String}
    {p : Process R D} (h : d.processes.lookup name = some (some p)) : toggleProcess toggle d name =
      .ok { d with processes := d.processes.insert name (some (toggle p)) } := by
  simp only [toggleProcess, h]

/-- With two results there are, a choice that no other answer tells from another is the same choice. -/
theorem eq_of_answers (hR : ¬ Subsingleton R) {c c' : Bool} {r r' : R}
    (h : ∀ v, (if c then r else v) = if c' then r' else v) : c = c' ∧ (c → r = r') := by
  cases c with
  | false =>
    cases c' with
    | false => exact ⟨rfl, fun hc => by cases hc⟩
    | true => exact absurd ⟨fun a b => (h a).trans (h b).symm⟩ hR
  | true =>
    cases c' with
    | false => exact absurd ⟨fun a b => (h a).symm.trans (h b)⟩ hR
    | true => exact ⟨rfl, fun _ => h r⟩

/-- Replacing the process of a bound name can be told from keeping it, unless the two do the same. -/
theorem replaced_alike_iff {d : Dispatcher R D} (hd : Alike d d) {name : String} {p : Process R D}
    (hp : d.processes.lookup name = some (some p)) (criteria : D → Bool) (process : D → R) :
    AlikeForever Call.apply SameAnswers (d.addProcess (Process.new name criteria process)) d ↔
      (Process.new name criteria process).Alike p := by
  generalize hq : Process.new name criteria process = q
  have hname : q.getName = name := by rw [← hq]; rfl
  have hen : q._isEnable = true := by rw [← hq]; rfl
  have hlookup : (d.addProcess q).processes.lookup name = some (some q) := by
    rw [addProcess, hname]; exact Finmap.lookup_insert _
  constructor
  · intro h
    by_cases hR : Subsingleton R
    · exact .inl hR
    have hmem : ∀ n, n ∈ (d.addProcess q).processes ↔ n ∈ d.processes := by
      intro n
      rw [addProcess, Finmap.mem_insert, hname, or_iff_right_of_imp]
      rintro rfl
      exact Finmap.lookup_isSome.1 (by rw [hp]; rfl)
    -- as they are, and after enabling `name`
    have hnow := fun data => eq_of_answers hR (answers_of_alikeForever h hmem hlookup hp data)
    have h' := h.next (c := .enableProcess name) (toggleProcess_ok _ hlookup) (toggleProcess_ok _ hp)
    have henabled := fun data => eq_of_answers hR (answers_of_alikeForever h'
      (fun n => by simp only [Finmap.mem_insert, hmem]) (Finmap.lookup_insert _) (Finmap.lookup_insert _) data)
    refine .inr fun data => ?_
    have hcan : q.canProceed data = p.canProceed data := (henabled data).1
    obtain ⟨haccepts, hproceed⟩ := hnow data
    have hq' : q.accepts data = q.canProceed data := by rw [Process.accepts, Process.isEnable, hen, Bool.true_and]
    rw [hq'] at haccepts hproceed
    refine ⟨hcan, fun hcrit => ⟨?_, hproceed hcrit⟩⟩
    rw [hcrit] at haccepts
    rw [hen]
    exact (Bool.and_eq_true_iff.1 haccepts.symm).1.symm
  · intro h
    refine Alike.bisim.alikeForever (fun _ _ => Alike.sameAnswers) ⟨hd.noneProcess_eq, fun n => ?_⟩
    by_cases hn : n = name
    · subst hn
      rw [hlookup, hp]
      exact .some ⟨q, p, rfl, rfl, h⟩
    · rw [addProcess, hname, Finmap.lookup_insert_of_ne _ hn]
      exact hd.lookup n

/-- In a state that was reached, the two ways to register a process lead to states that nothing tells apart,
exactly if the name is free or bound to a process that does the same, or there is only one result. -/
theorem overloads_agree_iff (noneProcess : D → R) (calls : List (Call R D)) {d : Dispatcher R D}
    (hd : run noneProcess calls = .ok d) (name : String) (criteria : D → Bool) (process : D → R) :
    AlikeForever Call.apply SameAnswers (d.addProcess (Process.new name criteria process))
      (d.addLamda name criteria process) ↔
    Subsingleton R ∨ ∀ b, binding calls name = some b → ∀ data,
      criteria data = b.process.canProceed data ∧
        (criteria data → b.disabled name = false ∧ process data = b.process.proceed data) := by
  obtain ⟨d', hd', hh⟩ := run_holds noneProcess calls ((run_ok_iff noneProcess calls).1 ⟨d, hd⟩)
  rw [hd] at hd'
  obtain rfl := Except.ok.inj hd'
  cases hb : binding calls name with
  | none =>
    have hfree : name ∉ d.processes := by rw [hh.mem_iff, hb]; simp
    rw [addLamda, if_neg hfree]
    refine iff_of_true ?_ (.inr fun b hb' => by cases hb')
    exact Alike.bisim.alikeForever (fun _ _ => Alike.sameAnswers) (hh.alike.insert name (Process.Alike.refl _))
  | some b =>
    have hbound : name ∈ d.processes := by rw [hh.mem_iff, hb]; rfl
    have hlookup := hh.lookup name
    rw [hb] at hlookup
    rw [addLamda, if_pos hbound, replaced_alike_iff hh.alike hlookup]
    refine or_congr_right ?_
    constructor
    · rintro h b' hb' data
      obtain rfl := Option.some.inj hb'
      refine ⟨(h data).1, fun hc => ⟨?_, ((h data).2 hc).2⟩⟩
      have hen := ((h data).2 hc).1
      simpa [Process.new] using hen
    · intro h data
      refine ⟨(h b rfl data).1, fun hc => ⟨?_, ((h b rfl data).2 hc).2⟩⟩
      rw [((h b rfl data).2 hc).1]
      rfl

/-- A name that is bound: registering what it is bound to again, and something else. -/
theorem overloads_agree_iff_bound : ∃ d : Dispatcher ℕ ℕ, run id [.addLamda "a" (· < 5) (· + 1)] = .ok d ∧
    AlikeForever Call.apply SameAnswers (d.addProcess (Process.new "a" (· < 5) (· + 1)))
      (d.addLamda "a" (· < 5) (· + 1)) ∧
    ¬ AlikeForever Call.apply SameAnswers (d.addProcess (Process.new "a" (· < 5) (· + 2)))
      (d.addLamda "a" (· < 5) (· + 2)) := by
  have hrun : run id [.addLamda "a" (· < 5) (· + 1)] = .ok ((new id).addLamda "a" (· < 5) (· + 1)) := rfl
  refine ⟨_, hrun, (overloads_agree_iff id _ hrun "a" (· < 5) (· + 1)).2 (.inr fun b hb data => ?_), fun h => ?_⟩
  · obtain rfl := Option.some.inj hb
    exact ⟨rfl, fun _ => ⟨rfl, rfl⟩⟩
  · rcases (overloads_agree_iff id _ hrun "a" (· < 5) (· + 2)).1 h with hone | hbound
    · exact absurd (hone.elim 0 1) Nat.zero_ne_one
    · exact absurd ((hbound _ rfl 0).2 rfl).2 (by decide)

/-- The second process of a name: one overload drops the first for it, the other ignores it. -/
theorem second_of_a_name : ∃ d : Dispatcher ℕ ℕ, run id [.addLamda "a" (fun _ => true) fun _ => 1] = .ok d ∧
    ∃ order order', (d.addProcess (Process.new "a" (fun _ => true) fun _ => 2)).IterationOrder order ∧
      (d.addLamda "a" (fun _ => true) fun _ => 2).IterationOrder order' ∧
      order.map Sigma.fst = order'.map Sigma.fst ∧
      (d.addProcess (Process.new "a" (fun _ => true) fun _ => 2)).proceed order 0 = some 2 ∧
      (d.addLamda "a" (fun _ => true) fun _ => 2).proceed order' 0 = some 1 :=
  ⟨(new id).addLamda "a" (fun _ => true) fun _ => 1, rfl,
    [⟨"a", some (Process.new "a" (fun _ => true) fun _ => 2)⟩],
    [⟨"a", some (Process.new "a" (fun _ => true) fun _ => 1)⟩], rfl, rfl, rfl, rfl, rfl⟩

end Dispatcher

end CWorkspace
