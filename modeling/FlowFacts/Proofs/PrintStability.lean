import FlowFacts.Proofs.Derailment
import FlowFacts.Proofs.PrintedTrees

/-!
# Programs that keep their text

The text of a parsed program need not be a text of a program: its lines may not follow the grammar,
two results may print under one name, and an operand may print under a name that stands for
nothing. In all other cases the text is read, and it is also the text of what is read.

Main results:

* `Source.Resolved.stable_iff`: which functions print trees that are read and accepted.
* `Module.exists_parse_text_iff`: which parsed programs have texts that are read back and printed
  again as they stand.
-/

namespace FlowFacts

open Source

instance : DecidablePred Function.Closed := fun f =>
  inferInstanceAs (Decidable (f.blocks.values.IsChain fun block next =>
    (∃ inst ∈ (f.instructionsOf block).getLast?, inst.IsBare) → ¬ StartsTerm next.label))

instance (f : Function) : DecidablePred f.Resolves
  | .inst id => inferInstanceAs (Decidable (∀ inst ∈ f.inst? id, inst.resultName ∈ f.shownNames))
  | .arg _ | .const _ | .global _ | .null | .undefined => isTrue trivial

/-- What a function has to satisfy so that its text is read back and printed again as it stands. -/
@[mk_iff]
structure Function.Stable (f : Function) : Prop where
  /-- Jumps by value have targets. -/
  switches : ∀ inst ∈ f.insts, inst.opcode = .switch → inst.targets ≠ []
  /-- Calls are of global symbols. -/
  calls : ∀ inst ∈ f.insts, inst.opcode = .call → ∃ callee, inst.operand? 0 = some (.global callee)
  /-- No label is taken for an operand of the line in front of it. -/
  closed : f.Closed
  /-- No two parameters or results print under one name. -/
  names : f.shownNames.Nodup
  /-- Operands print under names of parameters or results. -/
  operands : ∀ inst ∈ f.insts, ∀ o ∈ inst.shownOperands, f.Resolves o

instance : DecidablePred Function.Stable := fun f => decidable_of_iff' _ (Function.stable_iff f)

/-- A line that can be read is not a jump by value without targets, or a call of something else
    than a global symbol. -/
theorem Instruction.IsLegible.complete {inst : Instruction} (h : inst.IsLegible) :
    (inst.opcode = .switch → inst.targets ≠ []) ∧
      (inst.opcode = .call → ∃ callee, inst.operand? 0 = some (.global callee)) := by
  rcases h with hwritten | ⟨hopcode, -⟩
  · obtain ⟨id, name, opcode, operands, incoming, targets, block⟩ := inst
    unfold IsWritten at hwritten
    cases hwritten with
    | phi | jump | branch => exact ⟨nofun, nofun⟩
    | switch value default cases => exact ⟨fun _ => nofun, nofun⟩
    | call callee args => exact ⟨nofun, fun _ => ⟨callee, rfl⟩⟩
    | generic hgeneric operands =>
      constructor <;> (rintro rfl; cases hgeneric)
  · rcases hopcode with hop | hop <;> rw [hop] <;> exact ⟨nofun, nofun⟩

namespace Source.Resolved

variable {d : Definition} {scope : Scope} {L : Layout} {f : Function}

theorem stable_iff (h : Resolved d scope L f) : f.Stable ↔ f.Legible ∧ f.tree.WellFormed := by
  constructor
  · intro hstable
    have hlines : ∀ inst ∈ f.insts, inst.IsLegible := by
      intro inst hinst
      obtain ⟨st, -, hdenotes, -⟩ := h.exists_statement (h.mem_insts.1 hinst)
      exact hdenotes.isLegible (hstable.switches inst hinst) (hstable.calls inst hinst)
    exact ⟨⟨hlines, hstable.closed⟩,
      (h.wellFormed_tree_iff hlines).2 ⟨hstable.names, hstable.operands⟩⟩
  · rintro ⟨⟨hlines, hclosed⟩, hwell⟩
    obtain ⟨hnames, hoperands⟩ := (h.wellFormed_tree_iff hlines).1 hwell
    exact ⟨fun inst hinst => (hlines inst hinst).complete.1,
      fun inst hinst => (hlines inst hinst).complete.2, hclosed, hnames, hoperands⟩

end Source.Resolved

namespace Module

variable {name text : String} {m m' : Module}

/-- All functions are denoted by definitions. -/
def IsResolved (m : Module) : Prop :=
  ∀ f ∈ m.functions.values, ∃ d scope L, Resolved d scope L f

namespace IsResolved

/-- Legible functions are read back as the trees that they print. -/
theorem parse?_eq (hm : m.IsResolved) (hlegible : ∀ f ∈ m.functions.values, f.Legible) :
    parse? m.text = some (m.functions.values.map Function.tree) := by
  have htext : m.text =
      "\n".intercalate ((m.functions.values.map Function.tree).map Definition.text) := by
    rw [Module.text, List.map_map]
    exact congrArg _ (List.map_congr_left fun f hf => (f.text_tree (hlegible f hf).lines).symm)
  rw [htext]
  refine parse?_text ?_
  rw [List.forall_mem_map]
  intro f hf
  obtain ⟨d, scope, L, h⟩ := hm f hf
  exact h.printable_tree (hlegible f hf)

/-- If the text of a module is read in printed form, or with the right labels, then all its
    functions are legible. -/
theorem legible_of_parse? (hm : m.IsResolved) {ds : List Definition}
    (h : parse? m.text = some ds) :
    (∀ d ∈ ds, d.sections.length ≤ UInt32.size ∧ d.statements.length ≤ UInt32.size) ∧
    ((∀ d ∈ ds, ∀ st ∈ d.statements, st.body.Formed) ∨
        List.Forall₂ (fun d f => d.sections.map Section.label = f.blocks.values.map Block.label)
          ds m.functions.values →
      ∀ f ∈ m.functions.values, f.Legible) := by
  unfold parse? Reader.run? at h
  obtain ⟨⟨found, rest⟩, hread, hrest⟩ := Option.bind_eq_some_iff.1 h
  rw [Reader.seqLeft_apply] at hread
  obtain ⟨⟨found', s⟩, hmany, hread⟩ := Option.bind_eq_some_iff.1 hread
  obtain ⟨⟨_, t⟩, hend, heq⟩ := Option.map_eq_some_iff.1 hread
  cases heq
  cases t with
  | cons c t => cases hrest
  | nil =>
    cases hrest
    exact legible_of_steps (w := []) hm (by simp) (Reader.many_steps hmany) hend

/-- A text that is the text of what is read from it is legible: what is read has as many blocks
    and has their labels, so it is legible, and then its trees are in printed form. -/
theorem legible_of_text_eq (hm : m.IsResolved) (hm' : parse name m.text = .ok m')
    (htext : m'.text = m.text) : ∀ f ∈ m.functions.values, f.Legible := by
  obtain ⟨ds, hds, hresolve, -⟩ := exists_of_parse hm'
  obtain ⟨hfew, hlegible⟩ := hm.legible_of_parse? hds
  have hpairs : List.Forall₂ (fun d f => ∃ scope L, Resolved d scope L f) ds
      m'.functions.values := by
    have hmem : List.Forall₂ (fun d f => d ∈ ds ∧ d.resolve = .ok f) ds m'.functions.values :=
      (List.forall₂_and_left _ _).2 ⟨fun _ hd => hd, hresolve⟩
    refine hmem.imp fun d f ⟨hd, hdf⟩ => ?_
    obtain ⟨scope, L, hscope, hlays, hnumbered, hsound, hf⟩ :=
      (Definition.resolve_eq_ok_iff (hfew d hd).1 (hfew d hd).2).1 hdf
    exact ⟨scope, L, parse?_fits hds d hd, hscope, hlays, hnumbered, hsound, hf⟩
  have hresolved : m'.IsResolved := fun f hf =>
    let ⟨d, _, h⟩ := exists_of_forall₂ hpairs hf
    ⟨d, h⟩
  have hlegible' : ∀ f ∈ m'.functions.values, f.Legible := by
    refine (hresolved.legible_of_parse? (htext ▸ hds)).2 (.inr (hpairs.imp ?_))
    rintro d f ⟨scope, L, h⟩
    exact h.labels_eq.trans h.labels_parts
  have htrees := hresolved.parse?_eq hlegible'
  rw [htext, hds, Option.some.injEq] at htrees
  refine hlegible (.inl ?_)
  rw [htrees, List.forall_mem_map]
  intro f hf
  obtain ⟨d, scope, L, h⟩ := hresolved f hf
  exact h.formed_tree (hlegible' f hf).lines

/-- The text of legible functions is read exactly if the trees that they print are accepted. -/
theorem exists_parse_iff_trees (hm : m.IsResolved)
    (hlegible : ∀ f ∈ m.functions.values, f.Legible) :
    (∃ m', parse name m.text = .ok m') ↔
      WellFormed (m.functions.values.map Function.tree) := by
  unfold parse
  rw [hm.parse?_eq hlegible]
  refine exists_resolve_iff ?_
  rw [List.forall_mem_map]
  intro f hf
  obtain ⟨d, scope, L, h⟩ := hm f hf
  exact h.few_tree

/-- What is read from the text of legible functions has that text. -/
theorem text_of_parse (hm : m.IsResolved) (hlegible : ∀ f ∈ m.functions.values, f.Legible)
    (hm' : parse name m.text = .ok m') : m'.text = m.text := by
  obtain ⟨ds, hds, hresolve, -⟩ := exists_of_parse hm'
  cases (hm.parse?_eq hlegible).symm.trans hds
  rw [List.forall₂_map_left_iff] at hresolve
  have hmem : List.Forall₂ (fun f f' => f ∈ m.functions.values ∧ f.tree.resolve = .ok f')
      m.functions.values m'.functions.values :=
    (List.forall₂_and_left _ _).2 ⟨fun _ hf => hf, hresolve⟩
  have htexts : m.functions.values.map Function.text = m'.functions.values.map Function.text := by
    refine map_eq_of_forall₂ hmem fun {f f'} ⟨hf, hf'⟩ => ?_
    obtain ⟨d, scope, L, h⟩ := hm f hf
    exact (h.text_of_resolve (hlegible f hf) hf').symm
  rw [Module.text, Module.text, htexts]

end IsResolved

/-- A parsed module has definitions for its functions, if numbers do not run out. -/
theorem isResolved_of_parse (h : parse name text = .ok m)
    (hfew : ∀ f ∈ m.functions.values,
      f.blocks.size < UInt32.size ∧ f.insts.size ≤ UInt32.size) : m.IsResolved := by
  obtain ⟨ds, hds, hresolve, -⟩ := exists_of_parse h
  intro f hf
  obtain ⟨d, hd, hdf⟩ := exists_of_forall₂ hresolve hf
  exact ⟨d, Definition.exists_resolved (parse?_fits hds d hd) hdf (hfew f hf).1 (hfew f hf).2⟩

/-- The text of a parsed program is read back and printed again as it stands, exactly if all its
    functions are stable. Numbers are 32 bits wide, so no function may have more blocks or
    instructions than there are numbers. -/
theorem exists_parse_text_iff (h : parse name text = .ok m)
    (hfew : ∀ f ∈ m.functions.values,
      f.blocks.size < UInt32.size ∧ f.insts.size ≤ UInt32.size) :
    (∃ m', parse name m.text = .ok m' ∧ m'.text = m.text) ↔
      ∀ f ∈ m.functions.values, f.Stable := by
  have hm := isResolved_of_parse h hfew
  have hnames : ((m.functions.values.map Function.tree).map Definition.name).Nodup := by
    obtain ⟨_, _, _, hkeys⟩ := exists_of_parse h
    rw [List.map_map]
    exact hkeys ▸ m.functions.nodupKeys
  constructor
  · rintro ⟨m', hm', htext⟩ f hf
    have hlegible := hm.legible_of_text_eq hm' htext
    have hwell := (hm.exists_parse_iff_trees hlegible).1 ⟨m', hm'⟩
    obtain ⟨d, scope, L, h⟩ := hm f hf
    exact h.stable_iff.2 ⟨hlegible f hf, hwell.definitions _ (List.mem_map_of_mem hf)⟩
  · intro hstable
    have hboth : ∀ f ∈ m.functions.values, f.Legible ∧ f.tree.WellFormed := by
      intro f hf
      obtain ⟨d, scope, L, h⟩ := hm f hf
      exact h.stable_iff.1 (hstable f hf)
    have hlegible : ∀ f ∈ m.functions.values, f.Legible := fun f hf => (hboth f hf).1
    obtain ⟨m', hm'⟩ : ∃ m', parse name m.text = .ok m' :=
      (hm.exists_parse_iff_trees hlegible).2
        ⟨hnames, List.forall_mem_map.2 fun f hf => (hboth f hf).2⟩
    exact ⟨m', hm', hm.text_of_parse hlegible hm'⟩

/-- A nameless result, a store with a name and keywords without their forms. -/
def leniencyText : String :=
  "define @f(%p)\x7b
a:alloca
%s=store %p,1
br 1
b:phi
ret\x7d"

/-- What `leniencyText` says. -/
def leniency : Module where
  name := "module"
  functions := .ofList [("f",
    { name := "f"
      params := ["p"]
      blocks := .ofList [
        (.ofNat 0, ⟨.ofNat 0, "a", [.ofSlot 0, .ofSlot 1, .ofSlot 2], [], []⟩),
        (.ofNat 1, ⟨.ofNat 1, "b", [.ofSlot 3, .ofSlot 4], [], []⟩)]
      insts := #[
        ⟨.ofSlot 0, none, .alloca, [], [], [], .ofNat 0⟩,
        ⟨.ofSlot 1, some "s", .store, [.arg 0, .const 1], [], [], .ofNat 0⟩,
        ⟨.ofSlot 2, none, .br, [.const 1], [], [], .ofNat 0⟩,
        ⟨.ofSlot 3, none, .phi, [], [], [], .ofNat 1⟩,
        ⟨.ofSlot 4, none, .ret, [], [], [], .ofNat 1⟩] })]

/-- The text of `leniency` denotes another module, but prints again as it stands. -/
theorem exists_parse_text_leniency :
    parse "module" leniencyText = .ok leniency ∧ parse "module" leniency.text ≠ .ok leniency ∧
      ∃ m', parse "module" leniency.text = .ok m' ∧ m'.text = leniency.text := by
  have hparse : parse "module" leniencyText = .ok leniency := by decide +kernel
  have hfew : ∀ f ∈ leniency.functions.values,
      f.blocks.size < UInt32.size ∧ f.insts.size ≤ UInt32.size := by decide +kernel
  have hstable : ∀ f ∈ leniency.functions.values, f.Stable := by decide +kernel
  exact ⟨hparse, by decide +kernel, (exists_parse_text_iff hparse hfew).2 hstable⟩

/-- A program is read from the text, and its own text is not read back or printed otherwise. -/
def LosesText (text : String) : Prop :=
  ∃ m, parse "module" text = .ok m ∧ ¬ ∃ m', parse "module" m.text = .ok m' ∧ m'.text = m.text

theorem losesText_iff : LosesText text ↔ (parse "module" text).toOption.any (fun m =>
    (parse "module" m.text).toOption.all fun m' => m'.text ≠ m.text) = true := by
  unfold LosesText
  cases parse "module" text with
  | error e => simp [Except.toOption]
  | ok m =>
    cases hagain : parse "module" m.text with
    | error e => simp [Except.toOption, hagain]
    | ok m' => simp [Except.toOption, hagain]

instance : DecidablePred LosesText := fun _ => decidable_of_iff' _ losesText_iff

/-- One program for each reason: two results print under one name, a jump by value has no targets,
    a number is called, a label looks like an operand, the front of a label looks like one, and a
    store is used under its name. -/
theorem losesText_unstable :
    LosesText "define @f()\x7ba:%.1=alloca\nalloca\nret\x7d" ∧
    LosesText "define @f()\x7ba:switch 1\x7d" ∧
    LosesText "define @f()\x7ba:call 1,2\nret\x7d" ∧
    LosesText "define @f()\x7ba:br 1\n12:ret\x7d" ∧
    LosesText "define @f()\x7ba:br 1\n12b:ret\x7d" ∧
    LosesText "define @f()\x7ba:%s=store 1,2\nret %s\x7d" := by
  decide +kernel

end Module

end FlowFacts
