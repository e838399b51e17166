import FlowFacts.Proofs.Acceptance

/-!
# What names are resolved to

The functions of a parsed module have one instruction for each statement, in the order of the text.
A name stands for the parameter or the statement that carries it, whether that comes before or
after its use, and a label stands for the block of its section.

Main results:

* `Source.Definition.standsFor_of_operand`: what operands are resolved to.
* `Source.Definition.forall₂_located`: instructions and statements side by side.
* `Module.lowers_of_parse`: the functions of a parsed module.
-/

namespace FlowFacts

namespace Source

namespace Definition

/-- The statements in the order of the text, each with the number of its section. -/
def located (d : Definition) : List (Nat × Statement) :=
  (d.sections.mapIdx fun k s => s.statements.map fun st => (k, st)).flatten

/-- What a term stands for. A value stands for the parameter of that name or for the statement
    whose result has that name. -/
inductive StandsFor (d : Definition) : Term → Operand → Prop
  | param {k : Nat} {name : String} (h : d.params[k]? = some name) :
      d.StandsFor (.value name) (.arg (UInt32.ofNat k))
  | result {j k : Nat} {st : Statement} {name : String} (h : d.located[j]? = some (k, st))
      (hname : st.result = some name) : d.StandsFor (.value name) (.inst (.ofSlot j))
  | global (name : String) : d.StandsFor (.global name) (.global name)
  | integer {literal : String} {n : Int64} (h : n.toInt = Scope.literalValue literal) :
      d.StandsFor (.integer literal) (.const n)
  | null : d.StandsFor .null .null
  | undefined : d.StandsFor .undefined .undefined

/-- A label stands for the block of its section. -/
def Labels (d : Definition) (label : String) (id : BlockId) : Prop :=
  ∃ (k : Nat) (s : Section), d.sections[k]? = some s ∧ s.label = label ∧ id = .ofNat k

/-- The instruction is the one of the statement in place `i`, which lies in section `k`. -/
structure Translates (d : Definition) (i k : Nat) (st : Statement) (inst : Instruction) : Prop where
  id : inst.id = .ofSlot i
  block : inst.block = .ofNat k
  name : inst.name = st.result
  opcode : st.body.opcode? = some inst.opcode
  operands : List.Forall₂ d.StandsFor st.body.terms inst.operands
  incoming : List.Forall₂ d.Labels st.body.sources inst.incoming
  targets : List.Forall₂ d.Labels st.body.targets inst.targets

/-- The function has an instruction for each statement and a block for each section, and what is
    named in the definition is numbered in the function. -/
structure Lowers (d : Definition) (f : Function) : Prop where
  name : f.name = d.name
  params : f.params = d.params
  /-- No two parameters or results have the same name. -/
  names : d.names.Nodup
  labels : (d.sections.map Section.label).Nodup
  size_insts : f.insts.size = d.located.length
  inst : ∀ {i k : Nat} {st : Statement}, d.located[i]? = some (k, st) →
    ∃ inst, f.insts[i]? = some inst ∧ d.Translates i k st inst
  size_blocks : f.blocks.size = d.sections.length
  /-- The block of a section lists its statements. -/
  block : ∀ {k : Nat} {s : Section}, d.sections[k]? = some s →
    ∃ block, f.block? (.ofNat k) = some block ∧ block.id = .ofNat k ∧ block.label = s.label ∧
      block.instructions =
        (List.range' ((d.sections.take k).flatMap Section.statements).length
          s.statements.length).map .ofSlot

variable {d : Definition} {scope : Scope} {L : Layout} {f : Function}

/-- Nothing is lost when statements are located. -/
theorem map_snd_located (d : Definition) : d.located.map Prod.snd = d.statements := by
  have hsections : (d.sections.mapIdx fun k s => s.statements.map fun st => (k, st)).map
      (List.map Prod.snd) = d.sections.map Section.statements :=
    List.ext_getElem? fun k => by simp [Function.comp_def]
  rw [located, List.map_flatten, hsections, statements, List.flatMap]

/-! ## Operands and labels -/

theorem toInt_of_integer {literal : String} {n : Int64} (h : scope.integer literal = .ok n) :
    n.toInt = Scope.literalValue literal := by
  unfold Scope.integer at h
  dsimp only at h
  split_ifs at h with hrange
  cases h
  exact Int64.toInt_ofInt_of_le hrange.1 (Int.lt_of_le_of_lt hrange.2 (by decide))

theorem standsFor_of_operand (h : Scope.ofDefinition d = .ok scope) {t : Term} {o : Operand}
    (ho : scope.operand t = .ok o) : d.StandsFor t o := by
  cases t with
  | value name =>
    have hmem : (name, o) ∈ d.valueEntries := by
      rw [← (Scope.ofDefinition_eq_ok_iff.1 h).2.1]
      exact Scope.value_eq_ok_iff.1 ho
    rcases List.mem_append.1 hmem with hmem | hmem
    · obtain ⟨k, hk, rfl⟩ := mem_paramEntries.1 hmem
      rw [Nat.zero_add]
      exact .param hk
    · obtain ⟨j, st, hst, hresult, rfl⟩ := mem_resultEntries.1 hmem
      rw [← map_snd_located, List.getElem?_map, Option.map_eq_some_iff] at hst
      obtain ⟨⟨k, _⟩, hst, rfl⟩ := hst
      rw [Nat.zero_add]
      exact .result hst hresult
  | global name =>
    cases ho
    exact .global name
  | integer literal =>
    obtain ⟨n, hn, rfl⟩ := Scope.operand_integer_eq_ok_iff.1 ho
    exact .integer (toInt_of_integer hn)
  | null =>
    cases ho
    exact .null
  | undefined =>
    cases ho
    exact .undefined

theorem labels_of_block (h : Scope.ofDefinition d = .ok scope) {label : String} {id : BlockId}
    (hid : scope.block label = .ok id) : d.Labels label id := by
  rw [Scope.block_eq_ok_iff, (Scope.ofDefinition_eq_ok_iff.1 h).2.2, mem_labelEntries] at hid
  obtain ⟨k, s, hs, hlabel, rfl⟩ := hid
  rw [Nat.zero_add]
  exact ⟨k, s, hs, hlabel, rfl⟩

/-! ## Statements and blocks -/

/-- Statements and instructions stand side by side, each in the block of its section. -/
theorem forall₂_located (hlays : scope.Lays d.sections L) (hnumbered : L.Numbered) :
    List.Forall₂ (fun p inst => scope.Denotes p.2.body inst ∧ inst.name = p.2.result ∧
      inst.block = .ofNat p.1) d.located L.instructions := by
  rw [Layout.instructions, List.flatMap, located]
  refine List.rel_flatten (List.forall₂_iff_get.2 ⟨?_, fun k hk hk' => ?_⟩)
  · rw [List.length_mapIdx, List.length_map, hlays.length_eq]
  · rw [List.length_mapIdx] at hk
    rw [List.length_map] at hk'
    have hpart := (hlays.get hk hk').2
    simp only [List.get_eq_getElem, List.getElem_mapIdx, List.getElem_map] at hpart ⊢
    refine List.forall₂_map_left_iff.2 ?_
    have hblock := hnumbered.block_eq (List.getElem?_eq_getElem hk')
    refine (List.forall₂_and_left _ _).2 ⟨hblock, hpart.flip⟩ |>.flip.imp ?_
    exact fun st inst h => ⟨h.2.1, h.2.2, h.1⟩

/-- The numbers of the instructions of a part go on from those before it. -/
theorem map_id_eq_range' (hnumbered : L.Numbered) {k : Nat} {part : String × List Instruction}
    (hpart : L[k]? = some part) :
    part.2.map Instruction.id =
      (List.range' (Layout.instructions (L.take k)).length part.2.length).map .ofSlot := by
  have hsplit : L.instructions =
      Layout.instructions (L.take k) ++ (part.2 ++ Layout.instructions (L.drop (k + 1))) := by
    obtain ⟨hk, rfl⟩ := List.getElem?_eq_some_iff.1 hpart
    unfold Layout.instructions
    rw [← List.flatMap_cons, ← List.flatMap_append, ← List.drop_eq_getElem_cons hk,
      List.take_append_drop]
  refine List.ext_getElem? fun j => ?_
  rw [List.getElem?_map, List.getElem?_map]
  by_cases hj : j < part.2.length
  · have hinst : L.instructions[(Layout.instructions (L.take k)).length + j]? = some part.2[j] := by
      rw [hsplit, List.getElem?_append_right (by omega), Nat.add_sub_cancel_left,
        List.getElem?_append_left hj, List.getElem?_eq_getElem hj]
    rw [List.getElem?_eq_getElem hj, List.getElem?_range' hj, Option.map_some, Option.map_some,
      hnumbered.id_eq hinst, Nat.one_mul]
  · rw [List.getElem?_eq_none (by omega), List.getElem?_eq_none (by simp; omega)]
    rfl

theorem length_instructions_take (hlays : scope.Lays d.sections L) (k : Nat) :
    (Layout.instructions (L.take k)).length =
      ((d.sections.take k).flatMap Section.statements).length := by
  have hlengths : (d.sections.take k).map (fun s => s.statements.length) =
      (L.take k).map fun part => part.2.length :=
    map_eq_of_forall₂ (List.forall₂_take k hlays) fun h => h.2.length_eq
  rw [Layout.instructions, List.length_flatMap, List.length_flatMap, hlengths]

theorem lowers_of_resolve (h : d.resolve = .ok f) (hblocks : f.blocks.size < UInt32.size)
    (hinsts : f.insts.size ≤ UInt32.size) : d.Lowers f := by
  have hsizes := resolve_sizes h
  have hsections : d.sections.length ≤ UInt32.size := Nat.le_of_lt (hsizes.2 hblocks)
  rw [hsizes.1] at hinsts
  obtain ⟨scope, L, hscope, hlays, hnumbered, -, rfl⟩ :=
    (resolve_eq_ok_iff hsections hinsts).1 h
  obtain ⟨hlabels, hnames⟩ := exists_scope_iff.1 ⟨scope, hscope⟩
  have hlength : d.sections.length = L.length := hlays.length_eq
  have hlocated := forall₂_located hlays hnumbered
  refine ⟨rfl, rfl, hnames, hlabels, hlocated.length_eq.symm, fun {i k st} hi => ?_, ?_,
    fun {k s} hs => ?_⟩
  · obtain ⟨inst, hinst, hdenotes, hname, hblock⟩ :=
      exists_getElem?_of_forall₂ hlocated hi
    obtain ⟨hopcode, hoperands, hincoming, htargets⟩ := Scope.means_iff.1 hdenotes
    refine ⟨inst, List.getElem?_toArray.trans hinst, hnumbered.id_eq hinst, hblock, hname, hopcode,
      ?_, ?_, ?_⟩
    · exact hoperands.imp fun _ _ => standsFor_of_operand hscope
    · exact hincoming.imp fun _ _ => labels_of_block hscope
    · exact htargets.imp fun _ _ => labels_of_block hscope
  · rw [Function.size_linked, Layout.assemble, OrderedMap.size,
      Layout.entries_blocks hnumbered.few_blocks, List.length_mapIdx, hlength]
  · obtain ⟨part, hpart, hlabel, hdenotes⟩ := exists_getElem?_of_forall₂ hlays hs
    obtain ⟨hk, rfl⟩ := List.getElem?_eq_some_iff.1 hpart
    have hblock : (L.assemble d.name d.params).block? (.ofNat k) = some (Layout.block k L[k]) :=
      Layout.get?_blocks hnumbered.few_blocks hk
    rw [Function.block?_linked, hblock]
    refine ⟨_, rfl, rfl, hlabel, ?_⟩
    rw [← length_instructions_take hlays, hdenotes.length_eq]
    exact map_id_eq_range' hnumbered hpart

end Definition

end Source

open Source

namespace Module

/-- The functions of a parsed module are those that the text defines, name by name. Numbers are 32
    bits wide, so no function may have more blocks or instructions than there are numbers. -/
theorem lowers_of_parse {name text : String} {m : Module} (h : parse name text = .ok m)
    (hfew : ∀ f ∈ m.functions.values,
      f.blocks.size < UInt32.size ∧ f.insts.size ≤ UInt32.size) :
    ∃ definitions, parse? text = some definitions ∧
      m.functions.keys = definitions.map Definition.name ∧
      List.Forall₂ Definition.Lowers definitions m.functions.values := by
  obtain ⟨definitions, hparse, hresolve, hkeys⟩ := exists_of_parse h
  have hlowers : List.Forall₂ Definition.Lowers definitions m.functions.values := by
    refine ((List.forall₂_and_left _ _).2 ⟨hfew, hresolve.flip⟩).flip.imp fun d f h => ?_
    exact Definition.lowers_of_resolve h.2 h.1.1 h.1.2
  refine ⟨definitions, hparse, ?_, hlowers⟩
  rw [hkeys, map_eq_of_forall₂ hlowers fun h => h.name.symm]

/-- In `dispatchText` the merge uses the result of the statement behind it. -/
theorem lowers_of_parse_dispatch : ∃ m, parse "dispatch" dispatchText = .ok m ∧
    List.Forall₂ Definition.Lowers [dispatch] m.functions.values := by
  have hparse : parse "dispatch" dispatchText = resolve "dispatch" [dispatch] := by
    unfold parse
    rw [parse?_dispatchText]
  have hfew : ∃ m, resolve "dispatch" [dispatch] = .ok m ∧ ∀ f ∈ m.functions.values,
      f.blocks.size < UInt32.size ∧ f.insts.size ≤ UInt32.size := by
    have hall : (resolve "dispatch" [dispatch]).toOption.any (fun m => m.functions.values.all
        fun f => f.blocks.size < UInt32.size ∧ f.insts.size ≤ UInt32.size) = true := by
      decide +kernel
    cases hm : resolve "dispatch" [dispatch] with
    | error e =>
      rw [hm] at hall
      cases hall
    | ok m =>
      rw [hm] at hall
      exact ⟨m, rfl, by simpa [Except.toOption] using hall⟩
  obtain ⟨m, hm, hfew⟩ := hfew
  obtain ⟨definitions, hdefinitions, -, hlowers⟩ := lowers_of_parse (hparse.trans hm) hfew
  rw [parse?_dispatchText] at hdefinitions
  cases hdefinitions
  exact ⟨m, hparse.trans hm, hlowers⟩

end Module

end FlowFacts
