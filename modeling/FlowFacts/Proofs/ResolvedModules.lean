import FlowFacts.Proofs.Resolution

/-!
# What definitions denote

Resolving a definition is a matter of looking up its names and of the shape of its blocks: the
function has the instructions that the statements denote, in their order. A module has the
functions that its definitions denote.

Main results:

* `Source.Definition.resolve_eq_ok_iff`: which definitions denote a function, and which one.
* `Source.Definition.resolve_sizes`: the function has as many instructions as there are statements.
* `Source.addDefinitions_eq_ok_iff`: which lists of definitions denote a module, and which one.
* `Module.exists_of_parse`: what is known of the functions of a parsed module.
-/

namespace FlowFacts

namespace Source

open Layout

variable {d : Definition} {scope : Scope} {b b' : Builder} {st : Statement} {name : String}
  {params : List String} {faults : List BuildFault}

/-! ## Definitions -/

theorem foldl_createBlock {sections : List Section} {L : Layout} {current : Option BlockId}
    (h : L.length + sections.length ≤ UInt32.size) :
    sections.foldl (fun b s => b.createBlock s.label)
        (Builder.mk (L.assemble name params) current faults) =
      ⟨(L ++ blank sections).assemble name params, current, faults⟩ := by
  induction sections generalizing L with
  | nil => simp [blank]
  | cons s sections ih =>
    rw [List.length_cons] at h
    rw [List.foldl_cons, createBlock_assemble (by omega), ih]
    · simp [blank]
    · rw [List.length_append, List.length_singleton]
      omega

theorem foldl_param (b : Builder) (params : List String) :
    params.foldl Builder.param b =
      { b with function := { b.function with params := b.function.params ++ params } } := by
  induction params generalizing b with
  | nil => simp
  | cons p params ih =>
    rw [List.foldl_cons, ih]
    simp [Builder.param]

theorem skeleton_eq {d : Definition} (h : d.sections.length ≤ UInt32.size) :
    skeleton d = ⟨(blank d.sections).assemble d.name d.params, none, []⟩ := by
  have hparams : d.params.foldl Builder.param (.fresh d.name) =
      ⟨assemble [] d.name d.params, none, []⟩ := by
    rw [foldl_param]
    rfl
  unfold skeleton
  rw [hparams, foldl_createBlock (by simpa using h), List.nil_append]

theorem numbered_blank {sections : List Section} (h : sections.length ≤ UInt32.size) :
    Numbered (blank sections) := by
  have hinsts : instructions (blank sections) = [] := by
    simp [instructions, blank, List.flatMap_map]
  refine ⟨by simpa [blank] using h, by simp [hinsts], fun hk => ?_, fun {i s} hs => ?_⟩
  · rw [hinsts] at hk
    cases hk
  · obtain ⟨t, -, rfl⟩ := List.mem_map.1 (List.mem_of_getElem? hs)
    simp

/-- Which definitions denote a function, and which one it is: names are looked up in the scope,
    the instructions are laid out as the statements are, and the layout has to be sound. -/
theorem Definition.resolve_eq_ok_iff {d : Definition} {f : Function}
    (hsections : d.sections.length ≤ UInt32.size)
    (hstatements : d.statements.length ≤ UInt32.size) :
    d.resolve = .ok f ↔ ∃ scope L, Scope.ofDefinition d = .ok scope ∧
      scope.Lays d.sections L ∧ L.Numbered ∧ L.Sound ∧ f = (L.assemble d.name d.params).linked := by
  have hnumbered : Numbered ([] ++ blank d.sections) := numbered_blank hsections
  have hblock : ∀ {scope : Scope}, Scope.ofDefinition d = .ok scope →
      ∀ {i : Nat} {s : Section}, d.sections[i]? = some s →
        scope.block s.label = .ok (.ofNat (List.length ([] : Layout) + i)) := by
    intro scope hscope i s hs
    rw [Scope.block_eq_ok_iff, (Scope.ofDefinition_eq_ok_iff.1 hscope).2.2, mem_labelEntries]
    exact ⟨i, s, hs, rfl, rfl⟩
  have hfew : (instructions []).length + (d.sections.flatMap Section.statements).length ≤
      UInt32.size := by
    rw [show (instructions []).length = 0 from rfl, Nat.zero_add]
    exact hstatements
  unfold Definition.resolve
  rw [skeleton_eq hsections, bind_eq_ok_iff]
  constructor
  · rintro ⟨scope, hscope, h⟩
    obtain ⟨⟨g, current, faults⟩, hb, hbuild⟩ := bind_eq_ok h
    obtain ⟨L, hL, hnumbered, rfl, rfl⟩ :=
      (addSections_eq_ok_iff hnumbered (hblock hscope) hfew).1 ⟨current, hb⟩
    rw [mapError_eq_ok_iff] at hbuild
    obtain ⟨hsound, rfl⟩ := (build_assemble hnumbered).1 hbuild
    exact ⟨scope, L, hscope, hL, hnumbered, hsound, rfl⟩
  · rintro ⟨scope, L, hscope, hL, hL', hsound, rfl⟩
    obtain ⟨current, hb⟩ := (addSections_eq_ok_iff hnumbered (hblock hscope) hfew).2
      ⟨L, hL, hL', rfl, rfl⟩
    refine ⟨scope, hscope, ?_⟩
    rw [List.nil_append] at hb
    rw [bind_eq_ok_iff]
    exact ⟨_, hb, mapError_eq_ok_iff.2 ((build_assemble hL').2 ⟨hsound, rfl⟩)⟩

/-! ## Sizes -/

theorem addStatement_sizes (h : addStatement scope b st = .ok b')
    (hcurrent : b.current.isSome = true) :
    b'.function.insts.size = b.function.insts.size + 1 ∧
      b'.function.blocks.size = b.function.blocks.size ∧ b'.current.isSome = true := by
  obtain ⟨step, hstep, h⟩ := bind_eq_ok h
  obtain ⟨inst, -, -, -, -, hpushes⟩ := scope.exists_denotes hstep (.ofSlot 0) none (.ofNat 0)
  obtain ⟨built, hbuilt, h⟩ := bind_eq_ok h
  rw [perform, mapError_eq_ok_iff, hpushes.step, Except.ok.injEq] at hbuilt
  obtain ⟨block, hblock⟩ := Option.isSome_iff_exists.1 hcurrent
  have hsizes : built.function.insts.size = b.function.insts.size + 1 ∧
      built.function.blocks.size = b.function.blocks.size ∧ built.current.isSome = true := by
    rw [← hbuilt]
    unfold Builder.push
    rw [hblock]
    simp [Builder.place, OrderedMap.size, OrderedMap.entries_modify]
  cases hresult : st.result with
  | none =>
    rw [hresult] at h
    cases h
    exact hsizes
  | some result =>
    rw [hresult] at h
    cases h
    simpa [Builder.setName] using hsizes

theorem addStatements_sizes {statements : List Statement}
    (h : statements.foldlM (addStatement scope) b = .ok b') (hcurrent : b.current.isSome = true) :
    b'.function.insts.size = b.function.insts.size + statements.length ∧
      b'.function.blocks.size = b.function.blocks.size := by
  induction statements generalizing b with
  | nil =>
    cases h
    exact ⟨rfl, rfl⟩
  | cons st statements ih =>
    rw [List.foldlM_cons] at h
    obtain ⟨b₁, hb₁, h⟩ := bind_eq_ok h
    obtain ⟨hinsts, hblocks, hcurrent⟩ := addStatement_sizes hb₁ hcurrent
    obtain ⟨hinsts', hblocks'⟩ := ih h hcurrent
    rw [hinsts', hblocks', hinsts, hblocks, List.length_cons]
    exact ⟨by omega, rfl⟩

theorem addSections_sizes {sections : List Section}
    (h : sections.foldlM (addSection scope) b = .ok b') :
    b'.function.insts.size =
        b.function.insts.size + (sections.flatMap Section.statements).length ∧
      b'.function.blocks.size = b.function.blocks.size := by
  induction sections generalizing b with
  | nil =>
    cases h
    exact ⟨rfl, rfl⟩
  | cons s sections ih =>
    rw [List.foldlM_cons] at h
    obtain ⟨b₂, hb₂, h⟩ := bind_eq_ok h
    obtain ⟨hinsts', hblocks'⟩ := ih h
    obtain ⟨id, -, hb₂⟩ := bind_eq_ok hb₂
    obtain ⟨b₁, hb₁, hb₂⟩ := bind_eq_ok hb₂
    rw [perform, mapError_eq_ok_iff, Builder.step, Builder.switchTo] at hb₁
    split_ifs at hb₁
    cases hb₁
    obtain ⟨hinsts, hblocks⟩ := addStatements_sizes hb₂ rfl
    rw [hinsts', hblocks', hinsts, hblocks, List.flatMap_cons, List.length_append, Nat.add_assoc]
    exact ⟨rfl, rfl⟩

/-- If there are too many sections, all block numbers are in use. -/
theorem size_le_skeleton {d : Definition} (h : UInt32.size ≤ d.sections.length) :
    UInt32.size ≤ (skeleton d).function.blocks.size := by
  have hmono : ∀ (sections : List Section) (b : Builder), b.function.blocks.size ≤
      (sections.foldl (fun b s => b.createBlock s.label) b).function.blocks.size := by
    intro sections
    induction sections with
    | nil => simp
    | cons s sections ih =>
      intro b
      exact Nat.le_trans (b.size_le_createBlock s.label) (ih _)
  have htake : (d.sections.take UInt32.size).length = UInt32.size := List.length_take_of_le h
  have hparams : d.params.foldl Builder.param (.fresh d.name) =
      ⟨assemble [] d.name d.params, none, []⟩ := by
    rw [foldl_param]
    rfl
  -- The first sections use up the numbers, and the others do not give any back.
  unfold skeleton
  rw [hparams, ← List.take_append_drop UInt32.size d.sections, List.foldl_append,
    foldl_createBlock (by rw [htake]; simp)]
  refine Nat.le_trans ?_ (hmono _ _)
  have hsize : (blank (d.sections.take UInt32.size)).length = UInt32.size := by
    rw [blank, List.length_map, htake]
  show UInt32.size ≤ (blocks (blank (d.sections.take UInt32.size))).entries.length
  rw [entries_blocks (Nat.le_of_eq hsize), List.length_mapIdx, hsize]

/-- A function has as many instructions as there are statements, and as many blocks as there are
    sections unless block numbers run out. -/
theorem Definition.resolve_sizes {d : Definition} {f : Function} (h : d.resolve = .ok f) :
    f.insts.size = d.statements.length ∧
      (f.blocks.size < UInt32.size → d.sections.length < UInt32.size) := by
  obtain ⟨scope, -, h⟩ := bind_eq_ok h
  obtain ⟨b, hb, h⟩ := bind_eq_ok h
  rw [mapError_eq_ok_iff] at h
  obtain ⟨rfl, -, -⟩ := Builder.build_eq_ok h
  obtain ⟨hinsts, hblocks⟩ := addSections_sizes hb
  have hskeleton : (skeleton d).function.insts.size = 0 := by
    have hcreate : ∀ (sections : List Section) (b : Builder),
        (sections.foldl (fun b s => b.createBlock s.label) b).function.insts =
          b.function.insts := by
      intro sections
      induction sections with
      | nil => simp
      | cons s sections ih =>
        intro b
        exact ih _
    unfold skeleton
    rw [hcreate, foldl_param]
    rfl
  constructor
  · show b.function.insts.size = _
    rw [hinsts, hskeleton, Nat.zero_add]
    rfl
  · intro hfew
    rw [Function.size_linked] at hfew
    by_contra hmany
    have := size_le_skeleton (Nat.le_of_not_lt hmany)
    omega

/-! ## Modules -/

theorem addDefinition_eq_ok_iff {m m' : Module} : addDefinition m d = .ok m' ↔
    ∃ f, d.resolve = .ok f ∧ m'.name = m.name ∧
      m'.functions.entries = m.functions.entries ++ [(f.name, f)] := by
  unfold addDefinition
  rw [bind_eq_ok_iff]
  refine exists_congr fun f => and_congr_right fun _ => ?_
  by_cases hmem : f.name ∈ m.functions.keys
  · have hsome : (m.function? f.name).isSome = true := by
      rw [Module.function?, OrderedMap.isSome_get?, OrderedMap.contains_iff_mem_keys]
      exact hmem
    rw [if_pos hsome]
    refine iff_of_false (fun h => nomatch h) fun ⟨_, hentries⟩ => ?_
    have hnodup := m'.functions.nodupKeys
    rw [hentries, List.map_append, List.nodup_append] at hnodup
    exact hnodup.2.2 _ hmem _ (by simp) rfl
  · have hnone : ¬ (m.function? f.name).isSome = true := by
      rw [Module.function?, OrderedMap.isSome_get?, OrderedMap.contains_iff_mem_keys]
      exact hmem
    have hadd : (m.add f).functions.entries = m.functions.entries ++ [(f.name, f)] :=
      OrderedMap.insertEntry_of_not_mem hmem
    rw [if_neg hnone]
    constructor
    · intro h
      cases h
      exact ⟨rfl, hadd⟩
    · rintro ⟨hname, hentries⟩
      obtain ⟨name, functions⟩ := m'
      obtain rfl : name = m.name := hname
      refine congrArg Except.ok (Module.mk.injEq .. |>.mpr ⟨rfl, OrderedMap.ext ?_⟩)
      exact hadd.trans hentries.symm

theorem addDefinitions_eq_ok_iff {definitions : List Definition} {m m' : Module} :
    definitions.foldlM addDefinition m = .ok m' ↔ m'.name = m.name ∧
      ∃ fs, List.Forall₂ (fun d f => d.resolve = .ok f) definitions fs ∧
        m'.functions.entries = m.functions.entries ++ fs.map fun f => (f.name, f) := by
  induction definitions generalizing m with
  | nil =>
    constructor
    · intro h
      cases h
      exact ⟨rfl, [], .nil, by simp⟩
    · rintro ⟨hname, fs, hfs, hentries⟩
      cases hfs
      rw [List.map_nil, List.append_nil] at hentries
      obtain ⟨name, functions⟩ := m'
      obtain rfl : name = m.name := hname
      exact congrArg Except.ok (Module.mk.injEq .. |>.mpr ⟨rfl, OrderedMap.ext hentries.symm⟩)
  | cons d definitions ih =>
    rw [List.foldlM_cons, bind_eq_ok_iff]
    simp only [addDefinition_eq_ok_iff, ih]
    constructor
    · rintro ⟨m₁, ⟨f, hf, hname₁, hentries₁⟩, hname, fs, hfs, hentries⟩
      refine ⟨hname.trans hname₁, f :: fs, .cons hf hfs, ?_⟩
      rw [hentries, hentries₁]
      simp
    · rintro ⟨hname, fs, hfs, hentries⟩
      cases hfs with
      | @cons _ f _ fs hf hfs =>
        rw [List.map_cons, ← List.singleton_append, ← List.append_assoc] at hentries
        have hnodup : ((m.functions.entries ++ [(f.name, f)]).map Prod.fst).Nodup := by
          have hkeys := m'.functions.nodupKeys
          rw [hentries, List.map_append] at hkeys
          exact (List.nodup_append.1 hkeys).1
        exact ⟨⟨m.name, ⟨_, hnodup⟩⟩, ⟨f, hf, rfl, rfl⟩, hname, fs, hfs, hentries⟩

end Source

/-- A parsed module has the functions that its definitions denote, each under its own name. -/
theorem Module.exists_of_parse {name text : String} {m : Module} (h : parse name text = .ok m) :
    ∃ definitions, Source.parse? text = some definitions ∧
      List.Forall₂ (fun d f => d.resolve = .ok f) definitions m.functions.values ∧
      m.functions.keys = m.functions.values.map Function.name := by
  unfold parse at h
  cases hparse : Source.parse? text with
  | none =>
    rw [hparse] at h
    cases h
  | some definitions =>
    rw [hparse] at h
    obtain ⟨-, fs, hfs, hentries⟩ := Source.addDefinitions_eq_ok_iff.1 h
    have hvalues : m.functions.values = fs := by
      rw [OrderedMap.values, hentries]
      simp [Module.fresh, OrderedMap.empty, Function.comp_def]
    refine ⟨definitions, rfl, hvalues ▸ hfs, ?_⟩
    rw [hvalues, OrderedMap.keys, hentries]
    simp [Module.fresh, OrderedMap.empty, Function.comp_def]

end FlowFacts
