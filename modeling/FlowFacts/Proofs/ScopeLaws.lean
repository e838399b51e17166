import FlowFacts.Proofs.Agreement
import FlowFacts.Proofs.Assembly
import FlowFacts.Source.Resolve

/-!
# Scopes

What the first round of name resolution collects. It succeeds exactly if the names of parameters
and results are all different and the labels are, and then each name stands for what carries it:
a parameter for its position, a result for the slot of its statement, a label for the number of
its section.

Main results:

* `Source.Scope.ofDefinition_eq_ok_iff`: the scope of a function.
* `Source.Scope.value_eq_ok_iff`, `Source.Scope.block_eq_ok_iff`: lookups.
* `Source.mem_paramEntries`, `Source.mem_resultEntries`, `Source.mem_labelEntries`: what the names
  stand for.
-/

namespace FlowFacts

theorem bind_eq_ok_iff {ε α β : Type} {x : Except ε α} {f : α → Except ε β} {b : β} :
    x >>= f = .ok b ↔ ∃ a, x = .ok a ∧ f a = .ok b := by
  constructor
  · exact bind_eq_ok
  · rintro ⟨a, rfl, hb⟩
    exact hb

theorem mapError_eq_ok_iff {ε ε' α : Type} {x : Except ε α} {f : ε → ε'} {a : α} :
    x.mapError f = .ok a ↔ x = .ok a := by
  cases x <;> simp [Except.mapError]

namespace Source

/-! ## Entries -/

/-- What parameters stand for; `position` is the position of the first one. -/
def paramEntries (position : Nat) (params : List String) : List (String × Operand) :=
  params.mapIdx fun i name => (name, .arg (UInt32.ofNat (position + i)))

/-- What the results of statements stand for; `slot` is the slot of the first one. -/
def resultEntries (slot : Nat) : List Statement → List (String × Operand)
  | [] => []
  | s :: rest =>
    (s.result.toList.map fun name => (name, .inst (.ofSlot slot))) ++ resultEntries (slot + 1) rest

/-- What labels stand for; `count` is the number of the first one. -/
def labelEntries (count : Nat) (sections : List Section) : List (String × BlockId) :=
  sections.mapIdx fun i s => (s.label, .ofNat (count + i))

/-- All statements of a function. -/
def Definition.statements (d : Definition) : List Statement := d.sections.flatMap Section.statements

/-- What the parameters and results of a function stand for. -/
def Definition.valueEntries (d : Definition) : List (String × Operand) :=
  paramEntries 0 d.params ++ resultEntries 0 d.statements

theorem mem_paramEntries {position : Nat} {params : List String} {name : String}
    {operand : Operand} :
    (name, operand) ∈ paramEntries position params ↔
      ∃ i, params[i]? = some name ∧ operand = .arg (UInt32.ofNat (position + i)) := by
  simp only [paramEntries, List.mem_mapIdx, Prod.mk.injEq, List.getElem?_eq_some_iff]
  constructor
  · rintro ⟨i, hi, rfl, rfl⟩
    exact ⟨i, ⟨hi, rfl⟩, rfl⟩
  · rintro ⟨i, ⟨hi, rfl⟩, rfl⟩
    exact ⟨i, hi, rfl, rfl⟩

theorem resultEntries_append (slot : Nat) (xs ys : List Statement) :
    resultEntries slot (xs ++ ys) =
      resultEntries slot xs ++ resultEntries (slot + xs.length) ys := by
  induction xs generalizing slot with
  | nil => rfl
  | cons s xs ih =>
    have hslot : slot + (s :: xs).length = slot + 1 + xs.length := by
      rw [List.length_cons]
      omega
    rw [List.cons_append, resultEntries, resultEntries, ih, hslot, List.append_assoc]

theorem mem_resultEntries {slot : Nat} {statements : List Statement} {name : String}
    {operand : Operand} :
    (name, operand) ∈ resultEntries slot statements ↔
      ∃ (k : Nat) (s : Statement), statements[k]? = some s ∧ s.result = some name ∧
        operand = .inst (.ofSlot (slot + k)) := by
  induction statements generalizing slot with
  | nil => simp [resultEntries]
  | cons s statements ih =>
    rw [resultEntries, List.mem_append, ih]
    constructor
    · rintro (hmem | ⟨k, t, ht, hresult, rfl⟩)
      · obtain ⟨n, hn, heq⟩ := List.mem_map.1 hmem
        cases heq
        exact ⟨0, s, rfl, by simpa using hn, rfl⟩
      · exact ⟨k + 1, t, ht, hresult, by rw [Nat.add_assoc, Nat.add_comm 1 k]⟩
    · rintro ⟨k, t, ht, hresult, rfl⟩
      cases k with
      | zero =>
        cases ht
        exact .inl (by simp [hresult])
      | succ k => exact .inr ⟨k, t, ht, hresult, by rw [Nat.add_assoc, Nat.add_comm 1 k]⟩

theorem keys_resultEntries (slot : Nat) (statements : List Statement) :
    (resultEntries slot statements).map Prod.fst = statements.filterMap Statement.result := by
  induction statements generalizing slot with
  | nil => rfl
  | cons s statements ih =>
    rw [resultEntries, List.map_append, ih, List.filterMap_cons]
    cases s.result <;> rfl

theorem keys_paramEntries (position : Nat) (params : List String) :
    (paramEntries position params).map Prod.fst = params :=
  List.ext_getElem? fun i => by simp [paramEntries, Function.comp_def]

theorem mem_labelEntries {count : Nat} {sections : List Section} {label : String} {id : BlockId} :
    (label, id) ∈ labelEntries count sections ↔
      ∃ (i : Nat) (s : Section), sections[i]? = some s ∧ s.label = label ∧
        id = .ofNat (count + i) := by
  simp only [labelEntries, List.mem_mapIdx, Prod.mk.injEq, List.getElem?_eq_some_iff]
  constructor
  · rintro ⟨i, hi, rfl, rfl⟩
    exact ⟨i, _, ⟨hi, rfl⟩, rfl, rfl⟩
  · rintro ⟨i, s, ⟨hi, rfl⟩, rfl, rfl⟩
    exact ⟨i, hi, rfl, rfl⟩

namespace Scope

/-! ## Collecting -/

/-- The second scope has more entries than the first one. -/
structure Adds (scope scope' : Scope) (values : List (String × Operand))
    (labels : List (String × BlockId)) : Prop where
  function : scope'.function = scope.function
  values : scope'.values.entries = scope.values.entries ++ values
  labels : scope'.blocks.entries = scope.blocks.entries ++ labels

variable {scope scope' middle : Scope} {values values' : List (String × Operand)}
  {labels labels' : List (String × BlockId)}

theorem eq_of_entries (hfunction : scope.function = scope'.function)
    (hvalues : scope.values.entries = scope'.values.entries)
    (hlabels : scope.blocks.entries = scope'.blocks.entries) : scope = scope' := by
  cases scope
  cases scope'
  rw [Scope.mk.injEq]
  exact ⟨hfunction, OrderedMap.ext hvalues, OrderedMap.ext hlabels⟩

theorem adds_nil : scope.Adds scope' [] [] ↔ scope = scope' := by
  constructor
  · rintro ⟨hfunction, hvalues, hlabels⟩
    exact eq_of_entries hfunction.symm (by simpa using hvalues.symm) (by simpa using hlabels.symm)
  · rintro rfl
    exact ⟨rfl, by simp, by simp⟩

/-- Entries can be added in two portions. What is there in between has no repeated names, since
    what is there at the end has none. -/
theorem adds_append : scope.Adds scope' (values ++ values') (labels ++ labels') ↔
    ∃ middle, scope.Adds middle values labels ∧ middle.Adds scope' values' labels' := by
  constructor
  · rintro ⟨hfunction, hvalues, hlabels⟩
    have hvalueKeys : ((scope.values.entries ++ values).map Prod.fst).Nodup := by
      have hnodup := scope'.values.nodupKeys
      rw [hvalues, ← List.append_assoc, List.map_append] at hnodup
      exact (List.nodup_append.1 hnodup).1
    have hlabelKeys : ((scope.blocks.entries ++ labels).map Prod.fst).Nodup := by
      have hnodup := scope'.blocks.nodupKeys
      rw [hlabels, ← List.append_assoc, List.map_append] at hnodup
      exact (List.nodup_append.1 hnodup).1
    exact ⟨⟨scope.function, ⟨_, hvalueKeys⟩, ⟨_, hlabelKeys⟩⟩, ⟨rfl, rfl, rfl⟩,
      ⟨hfunction, by simpa using hvalues, by simpa using hlabels⟩⟩
  · rintro ⟨middle, h, h'⟩
    exact ⟨h'.function.trans h.function, by rw [h'.values, h.values, List.append_assoc],
      by rw [h'.labels, h.labels, List.append_assoc]⟩

theorem define_eq_ok_iff {name : String} {operand : Operand} :
    scope.define name operand = .ok scope' ↔ scope.Adds scope' [(name, operand)] [] := by
  unfold define
  constructor
  · intro h
    split_ifs at h with hmem
    cases h
    exact ⟨rfl, OrderedMap.entries_eq_concat_iff.2 ⟨hmem, rfl⟩, by simp⟩
  · intro h
    obtain ⟨hnew, hvalues⟩ := OrderedMap.entries_eq_concat_iff.1 h.values
    rw [if_neg hnew]
    exact congrArg Except.ok
      (eq_of_entries h.function.symm (by rw [hvalues]) (by rw [h.labels, List.append_nil]))

theorem defineLabel_eq_ok_iff {label : String} :
    scope.defineLabel label = .ok scope' ↔
      scope.Adds scope' [] [(label, .ofNat scope.blocks.size)] := by
  unfold defineLabel
  constructor
  · intro h
    split_ifs at h with hmem
    cases h
    exact ⟨rfl, by simp, OrderedMap.entries_eq_concat_iff.2 ⟨hmem, rfl⟩⟩
  · intro h
    obtain ⟨hnew, hlabels⟩ := OrderedMap.entries_eq_concat_iff.1 h.labels
    rw [if_neg hnew]
    exact congrArg Except.ok
      (eq_of_entries h.function.symm (by rw [h.values, List.append_nil]) (by rw [hlabels]))

theorem defineParams_eq_ok_iff {position : Nat} {params : List String} :
    scope.defineParams position params = .ok scope' ↔
      scope.Adds scope' (paramEntries position params) [] := by
  induction params generalizing scope position with
  | nil => simp [defineParams, paramEntries, adds_nil]
  | cons name params ih =>
    have hsplit : paramEntries position (name :: params) =
        [(name, .arg (UInt32.ofNat position))] ++ paramEntries (position + 1) params := by
      simp [paramEntries, List.mapIdx_cons, Nat.add_assoc, Nat.add_comm 1]
    rw [defineParams, bind_eq_ok_iff, hsplit, ← List.append_nil ([] : List (String × BlockId)),
      adds_append]
    simp only [define_eq_ok_iff, ih]

theorem defineResults_eq_ok_iff {slot : Nat} {statements : List Statement} :
    scope.defineResults slot statements = .ok scope' ↔
      scope.Adds scope' (resultEntries slot statements) [] := by
  induction statements generalizing scope slot with
  | nil => simp [defineResults, resultEntries, adds_nil]
  | cons s statements ih =>
    rw [defineResults, resultEntries]
    cases s.result with
    | none => exact ih
    | some name =>
      show (scope.define name (.inst (.ofSlot slot)) >>= fun scope =>
        scope.defineResults (slot + 1) statements) = .ok scope' ↔
          scope.Adds scope' ([(name, .inst (.ofSlot slot))] ++ resultEntries (slot + 1) statements)
            ([] ++ [])
      rw [bind_eq_ok_iff, adds_append]
      simp only [define_eq_ok_iff, ih]

theorem defineSections_eq_ok_iff {slot : Nat} {sections : List Section} :
    scope.defineSections slot sections = .ok scope' ↔
      scope.Adds scope' (resultEntries slot (sections.flatMap Section.statements))
        (labelEntries scope.blocks.size sections) := by
  induction sections generalizing scope slot with
  | nil => simp [defineSections, resultEntries, labelEntries, adds_nil]
  | cons s sections ih =>
    have hlabels : labelEntries scope.blocks.size (s :: sections) =
        [(s.label, .ofNat scope.blocks.size)] ++
          ([] ++ labelEntries (scope.blocks.size + 1) sections) := by
      simp [labelEntries, List.mapIdx_cons, Nat.add_assoc, Nat.add_comm 1]
    rw [defineSections, bind_eq_ok_iff, List.flatMap_cons, resultEntries_append, hlabels,
      ← List.nil_append (resultEntries slot s.statements ++ _), adds_append]
    refine exists_congr fun labelled => ?_
    rw [defineLabel_eq_ok_iff]
    refine and_congr_right fun hlabel => ?_
    rw [bind_eq_ok_iff, adds_append]
    refine exists_congr fun named => ?_
    rw [defineResults_eq_ok_iff, ih]
    refine and_congr_right fun hnamed => ?_
    have hsize : named.blocks.size = scope.blocks.size + 1 := by
      unfold OrderedMap.size
      rw [hnamed.labels, hlabel.labels]
      simp
    rw [hsize]

/-- The names of a function can be collected if they are all different, and then they stand for
    what carries them. -/
theorem ofDefinition_eq_ok_iff {d : Definition} {scope : Scope} :
    ofDefinition d = .ok scope ↔ scope.function = d.name ∧
      scope.values.entries = d.valueEntries ∧
      scope.blocks.entries = labelEntries 0 d.sections := by
  have hadds : ofDefinition d = .ok scope ↔
      (Scope.mk d.name .empty .empty).Adds scope ([] ++ d.valueEntries)
        ([] ++ labelEntries 0 d.sections) := by
    unfold ofDefinition Definition.valueEntries
    rw [bind_eq_ok_iff, List.nil_append, adds_append]
    refine exists_congr fun named => ?_
    rw [defineParams_eq_ok_iff]
    refine and_congr_right fun hnamed => ?_
    have hsize : named.blocks.size = 0 := by
      unfold OrderedMap.size
      rw [hnamed.labels]
      rfl
    rw [defineSections_eq_ok_iff, hsize]
    rfl
  rw [hadds]
  constructor
  · rintro ⟨hfunction, hvalues, hlabels⟩
    exact ⟨hfunction, hvalues, hlabels⟩
  · rintro ⟨hfunction, hvalues, hlabels⟩
    exact ⟨hfunction, hvalues, hlabels⟩

/-! ## Lookups -/

theorem value_eq_ok_iff {name : String} {operand : Operand} :
    scope.value name = .ok operand ↔ (name, operand) ∈ scope.values.entries := by
  rw [← OrderedMap.get?_eq_some_iff]
  unfold value
  cases scope.values.get? name <;> simp

theorem block_eq_ok_iff {label : String} {id : BlockId} :
    scope.block label = .ok id ↔ (label, id) ∈ scope.blocks.entries := by
  rw [← OrderedMap.get?_eq_some_iff]
  unfold block
  cases scope.blocks.get? label <;> simp

end Scope

end Source

end FlowFacts
