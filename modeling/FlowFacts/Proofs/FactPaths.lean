import FlowFacts.Proofs.Fixpoint
import Mathlib.Data.List.Chain
import Mathlib.Logic.Relation

/-!
# Facts travel along paths

A fact is a property of values that a join has exactly if one of its sides has it, such as that an
index belongs to a set. If the source of an edge generates the fact there, or passes it on unless
it kills it, then the solver leaves the fact on exactly those edges to which some path carries it.

Main results:

* `carried_iff_exists_path`: to be carried to an edge is to be generated at the start of a path
  that ends with the edge and that kills the fact nowhere else.
* `carried_iff_leads`: a fact that nothing kills is carried wherever a path leads.
* `Reachable.carried`: no run puts a fact on an edge to which no path carries it.
* `solve_fact_iff`: the facts on an edge are the ones that are carried to it.
-/

namespace FlowFacts

/-! ## Paths -/

namespace FlowGraph

/-- A sequence of edges between instructions, each of which starts where the one before it ends. -/
structure IsPath (g : FlowGraph) (path : List Edge) : Prop where
  mem_edges : ∀ e ∈ path, e ∈ g.edges
  source_pos : ∀ e ∈ path, 1 ≤ e.source
  chain : path.IsChain fun d e => d.target = e.source

variable {g : FlowGraph} {path : List Edge} {d e : Edge}

theorem isPath_singleton (he : e ∈ g.edges) (hsource : 1 ≤ e.source) : g.IsPath [e] where
  mem_edges := by simpa using he
  source_pos := by simpa using hsource
  chain := List.isChain_singleton e

/-- A path goes on with every edge that starts where it ends. -/
theorem isPath_concat (hlast : path.getLast? = some d) :
    g.IsPath (path ++ [e]) ↔
      g.IsPath path ∧ e ∈ g.edges ∧ 1 ≤ e.source ∧ d.target = e.source := by
  have hchain : (path ++ [e]).IsChain (fun d e => d.target = e.source) ↔
      path.IsChain (fun d e => d.target = e.source) ∧ d.target = e.source := by
    rw [List.isChain_append]
    simp [hlast]
  constructor
  · rintro ⟨hmem, hpos, hc⟩
    obtain ⟨hpath, hlink⟩ := hchain.1 hc
    refine ⟨⟨fun x hx => hmem x ?_, fun x hx => hpos x ?_, hpath⟩, hmem e ?_, hpos e ?_, hlink⟩
    all_goals simp [*]
  · rintro ⟨⟨hmem, hpos, hc⟩, he, hsource, hlink⟩
    refine ⟨fun x hx => ?_, fun x hx => ?_, hchain.2 ⟨hc, hlink⟩⟩
    · rcases List.mem_append.1 hx with hx | hx
      · exact hmem x hx
      · rwa [List.mem_singleton.1 hx]
    · rcases List.mem_append.1 hx with hx | hx
      · exact hpos x hx
      · rwa [List.mem_singleton.1 hx]

/-- An edge to which a fact is carried: the source of the edge generates the fact there, or the
    fact is carried to an edge in front of the source, which does not kill it. -/
inductive Carried (g : FlowGraph) (Gen Kill : Edge → Prop) : Edge → Prop
  | generated {e : Edge} : e ∈ g.edges → 1 ≤ e.source → Gen e → Carried g Gen Kill e
  | passed {d e : Edge} : Carried g Gen Kill d → e ∈ g.edges → 1 ≤ e.source →
      d.target = e.source → ¬ Kill e → Carried g Gen Kill e

variable {Gen Kill : Edge → Prop}

theorem Carried.exists_path (h : g.Carried Gen Kill e) :
    ∃ first rest, g.IsPath (first :: rest) ∧ (first :: rest).getLast? = some e ∧ Gen first ∧
      ∀ d ∈ rest, ¬ Kill d := by
  induction h with
  | @generated e he hsource hgen =>
    exact ⟨e, [], isPath_singleton he hsource, rfl, hgen, by simp⟩
  | @passed d e _ he hsource hlink hkill ih =>
    obtain ⟨first, rest, hpath, hlast, hgen, hrest⟩ := ih
    refine ⟨first, rest ++ [e], ?_, ?_, hgen, ?_⟩
    · exact (isPath_concat hlast).2 ⟨hpath, he, hsource, hlink⟩
    · rw [← List.cons_append, List.getLast?_concat]
    · intro x hx
      rcases List.mem_append.1 hx with hx | hx
      · exact hrest x hx
      · rwa [List.mem_singleton.1 hx]

theorem Carried.of_path {first : Edge} {rest : List Edge} (hpath : g.IsPath (first :: rest))
    (hlast : (first :: rest).getLast? = some e) (hgen : Gen first)
    (hrest : ∀ d ∈ rest, ¬ Kill d) : g.Carried Gen Kill e := by
  -- The last edge is taken off, so the induction runs from the end of the path.
  induction rest using List.reverseRecOn generalizing e with
  | nil =>
    obtain rfl : first = e := by simpa using hlast
    exact .generated (hpath.mem_edges _ (by simp)) (hpath.source_pos _ (by simp)) hgen
  | append_singleton rest x ih =>
    rw [← List.cons_append, List.getLast?_concat] at hlast
    obtain rfl : x = e := Option.some.inj hlast
    obtain ⟨d, hd⟩ : ∃ d, (first :: rest).getLast? = some d :=
      ⟨_, List.getLast?_eq_some_getLast (List.cons_ne_nil first rest)⟩
    obtain ⟨hinit, he, hsource, hlink⟩ := (isPath_concat hd).1 hpath
    have hcarried := ih hinit hd fun y hy => hrest y (List.mem_append_left _ hy)
    exact hcarried.passed he hsource hlink (hrest x (by simp))

/-- To be carried to an edge is to be generated at the start of a path that ends with the edge and
    that kills the fact nowhere else. -/
theorem carried_iff_exists_path :
    g.Carried Gen Kill e ↔
      ∃ first rest, g.IsPath (first :: rest) ∧ (first :: rest).getLast? = some e ∧ Gen first ∧
        ∀ d ∈ rest, ¬ Kill d := by
  constructor
  · exact Carried.exists_path
  · rintro ⟨first, rest, hpath, hlast, hgen, hrest⟩
    exact .of_path hpath hlast hgen hrest

/-- An edge leads from one node to another. -/
def Leads (g : FlowGraph) (m n : Nat) : Prop :=
  ∃ e ∈ g.edges, e.source = m ∧ e.target = n

/-- What nothing kills is carried wherever a path leads from where it is generated. -/
theorem carried_iff_leads {G : Nat → Prop}
    (he : e ∈ g.edges) (hsource : 1 ≤ e.source) (hg : g.WellFormed) :
    g.Carried (fun e => G e.source) (fun _ => False) e ↔
      ∃ n, 1 ≤ n ∧ G n ∧ Relation.ReflTransGen g.Leads n e.source := by
  constructor
  · intro h
    induction h with
    | generated _ hsource hgen => exact ⟨_, hsource, hgen, .refl⟩
    | @passed d e hd _ _ hlink _ ih =>
      have hmem : d ∈ g.edges := by cases hd <;> assumption
      have hpos : 1 ≤ d.source := by cases hd <;> assumption
      obtain ⟨n, hn, hgen, hpath⟩ := ih hmem hpos
      exact ⟨n, hn, hgen, hpath.tail ⟨d, hmem, rfl, hlink⟩⟩
  · rintro ⟨n, hn, hgen, hpath⟩
    generalize hm : e.source = m at hpath
    induction hpath generalizing e with
    | refl => exact .generated he hsource (hm ▸ hgen)
    | tail hpath hlead ih =>
      obtain ⟨d, hd, rfl, htarget⟩ := hlead
      have hpos : 1 ≤ d.source := by
        rcases Relation.ReflTransGen.cases_tail hpath with heq | ⟨_, -, c, hc, -, hlink⟩
        · exact heq ▸ hn
        · exact hlink ▸ (mem_nodes.1 (hg.target_mem hc)).1
      exact (ih hd hpos rfl).passed he hsource (htarget.trans hm.symm) not_false

end FlowGraph

/-! ## Facts -/

/-- A property that the least value lacks, and that a join has exactly if one of its sides has
    it. -/
structure Domain.IsFact {α : Type} [Domain α] (P : α → Prop) : Prop where
  bottom : ¬ P Domain.bottom
  join : ∀ {x y : α}, P (Domain.join x y) ↔ P x ∨ P y

namespace Domain.IsFact

variable {α : Type} [Domain α] {P : α → Prop}

theorem mono (hP : IsFact P) {x y : α} (hxy : Domain.LE x y) (hx : P x) : P y := by
  rw [← show Domain.join x y = y from hxy]
  exact hP.join.2 (.inl hx)

theorem foldl_join_iff (hP : IsFact P) {xs : List α} {x : α} :
    P (xs.foldl Domain.join x) ↔ P x ∨ ∃ y ∈ xs, P y := by
  induction xs generalizing x with
  | nil => simp
  | cons y xs ih => rw [List.foldl_cons, ih, hP.join, List.exists_mem_cons_iff, or_assoc]

theorem joinAll_iff (hP : IsFact P) {xs : List α} : P (Domain.joinAll xs) ↔ ∃ x ∈ xs, P x := by
  unfold Domain.joinAll
  rw [hP.foldl_join_iff]
  exact or_iff_right hP.bottom

end Domain.IsFact

theorem IndexSet.isFact_mem (i : Nat) : Domain.IsFact fun s : IndexSet => i ∈ s where
  bottom := SortedSet.not_mem_empty i
  join := SortedSet.mem_union

theorem PointsTo.isFact_says (l : Location) (x : Option Location) :
    Domain.IsFact fun m : PointsTo => m.Says l x where
  bottom := not_says_bottom l x
  join := says_join

/-! ## Facts of runs -/

section Facts

variable {α : Type} [Domain α] {P : α → Prop}

/-- What is known in front of a node has the facts of the edges that lead there. -/
theorem SolverState.input_iff (hP : Domain.IsFact P) (st : SolverState α) (g : FlowGraph)
    (n : Nat) : P (st.input g n) ↔ ∃ e ∈ g.edges, e.target = n ∧ P (st.value e) := by
  unfold SolverState.input
  simp only [hP.joinAll_iff, List.mem_map, FlowGraph.mem_incoming]
  constructor
  · rintro ⟨-, ⟨e, ⟨he, htarget⟩, rfl⟩, hx⟩
    exact ⟨e, he, htarget, hx⟩
  · rintro ⟨e, he, htarget, hx⟩
    exact ⟨_, ⟨e, ⟨he, htarget⟩, rfl⟩, hx⟩

namespace Solver

variable {a : Analysis α} {ctx : FlowContext} {order : Order} {config : SolverConfig}
  {st st' : SolverState α} {e : Edge} {Gen Kill : Edge → Prop}

variable [DecidableEq α] [LawfulDomain α]

/-- A fact on an edge was there before a visit, or the visit produced it. -/
theorem Step.fact_cases (hP : Domain.IsFact P) (hg : ctx.graph.WellFormed)
    (hsize : st.values.size = ctx.graph.edgeCount) (h : Step a ctx order st st')
    (he : e ∈ ctx.graph.edges) (hfact : P (st'.value e)) :
    P (st.value e) ∨ ∃ v, a.component ctx e.source (st.input ctx.graph e.source) e = some v ∧
      P v := by
  cases hv : a.component ctx e.source (st.input ctx.graph e.source) e with
  | none =>
    have hle : Domain.LE (st'.value e) (st.value e) :=
      h.value_le hg hsize he (Domain.le_refl _) (by simp [hv])
    exact .inl (hP.mono hle hfact)
  | some v =>
    have hle : Domain.LE (st'.value e) (Domain.join (st.value e) v) := by
      refine h.value_le hg hsize he (Domain.le_join_left _ v) fun u hu => ?_
      rw [hv] at hu
      exact Option.some.inj hu ▸ Domain.le_join_right _ v
    exact (hP.join.1 (hP.mono hle hfact)).imp_right fun hv => ⟨v, rfl, hv⟩

/-- No run puts a fact on an edge to which no path carries it. -/
theorem Reachable.carried (hP : Domain.IsFact P) (hg : ctx.graph.WellFormed)
    (hinitial : ¬ P a.initial)
    (hproduced : ∀ {st : SolverState α} {e : Edge} {v : α}, Reachable a ctx config st →
      e ∈ ctx.graph.edges →
      a.component ctx e.source (st.input ctx.graph e.source) e = some v → P v →
      Gen e ∨ (P (st.input ctx.graph e.source) ∧ ¬ Kill e))
    (h : Reachable a ctx config st) (he : e ∈ ctx.graph.edges) (hfact : P (st.value e)) :
    ctx.graph.Carried Gen Kill e := by
  induction h generalizing e with
  | start =>
    rw [value_start hg he] at hfact
    split_ifs at hfact
    · exact absurd hfact hinitial
    · exact absurd hfact hP.bottom
  | step hreach hstep ih =>
    rcases hstep.fact_cases hP hg hreach.size_eq he hfact with hold | ⟨v, hv, hPv⟩
    · exact ih he hold
    · obtain ⟨inst, -, hinst, -⟩ := Analysis.component_eq_some hv
      have hsource := (FlowGraph.mem_nodes.1 (FlowGraph.mem_nodes_of_instruction? hinst)).1
      rcases hproduced hreach he hv hPv with hgen | ⟨hinput, hkill⟩
      · exact .generated he hsource hgen
      · obtain ⟨d, hd, hlink, hPd⟩ := (SolverState.input_iff hP _ _ _).1 hinput
        exact (ih hd hPd).passed he hsource hlink hkill

end Solver

end Facts

/-! ## Facts of answers -/

/-- How an analysis treats a fact: it is not there at the start, and what is produced for an edge
    has it exactly if the edge's source generates it there, or was given it and does not kill
    it. -/
structure Analysis.GenKill {α : Type} (a : Analysis α) (ctx : FlowContext) (P : α → Prop)
    (Gen Kill : Edge → Prop) : Prop where
  initial : ¬ P a.initial
  component : ∀ {e : Edge} {x v : α}, e ∈ ctx.graph.edges →
    a.component ctx e.source x e = some v → (P v ↔ Gen e ∨ (P x ∧ ¬ Kill e))

section Answers

variable {α : Type} [Domain α] [DecidableEq α] [LawfulDomain α] {P : α → Prop}
  {a : Analysis α} {f : Function} {config : SolverConfig} {s : Solution α} {e : Edge}
  {Gen Kill : Edge → Prop}

/-- An answer of a monotone analysis has every fact that is carried to an edge. -/
theorem solve_fact_of_carried (hP : Domain.IsFact P) (hmono : a.Monotone)
    (h : solve a f config = .ok s)
    (hproduced : ∀ {e : Edge} {x v : α}, e ∈ s.graph.edges →
      a.component ⟨f, s.graph⟩ e.source x e = some v → Gen e ∨ (P x ∧ ¬ Kill e) → P v)
    (hcarried : s.graph.Carried Gen Kill e) : P (s.value e) := by
  have hvalue : ∀ {e : Edge}, e ∈ s.graph.edges → 1 ≤ e.source →
      a.component ⟨f, s.graph⟩ e.source (s.input e.source) e = some (s.value e) :=
    fun he hsource => solve_component hmono h hsource (FlowGraph.mem_outgoing.2 ⟨he, rfl⟩)
  induction hcarried with
  | generated he hsource hgen => exact hproduced he (hvalue he hsource) (.inl hgen)
  | @passed d e hd he hsource hlink hkill ih =>
    have hmem : d ∈ s.graph.edges := by cases hd <;> assumption
    refine hproduced he (hvalue he hsource) (.inr ⟨?_, hkill⟩)
    exact hP.joinAll_iff.2 ⟨_, List.mem_map_of_mem (FlowGraph.mem_incoming.2 ⟨hmem, hlink⟩), ih⟩

/-- The facts on an edge are the ones that are carried to it. -/
theorem solve_fact_iff (hP : Domain.IsFact P) (hmono : a.Monotone)
    (h : solve a f config = .ok s) (hgk : a.GenKill ⟨f, s.graph⟩ P Gen Kill)
    (he : e ∈ s.graph.edges) : P (s.value e) ↔ s.graph.Carried Gen Kill e := by
  constructor
  · intro hfact
    obtain ⟨st, hreach, -, rfl⟩ := solve_eq_ok h
    exact hreach.carried hP (a.wellFormed_context f) hgk.initial
      (fun _ he hv => (hgk.component he hv).1) he hfact
  · exact solve_fact_of_carried hP hmono h fun he hv => (hgk.component he hv).2

end Answers

/-- A function with a loop that swaps two values: each of its two merges takes the other one's
    result when control comes around. -/
def swapLoop : Function :=
  ((Builder.fresh "swap").run
    [.block "entry", .binary .add (.arg 0) (.const 0), .binary .add (.arg 0) (.const 1),
      .jump (.ofNat 1), .block "loop",
      .appendMerge [(.inst (.ofSlot 0), .ofNat 0), (.inst (.ofSlot 4), .ofNat 1)],
      .appendMerge [(.inst (.ofSlot 1), .ofNat 0), (.inst (.ofSlot 3), .ofNat 1)],
      .binary .icmp (.inst (.ofSlot 3)) (.inst (.ofSlot 4)),
      .branch (.inst (.ofSlot 5)) (.ofNat 1) (.ofNat 2), .block "exit",
      .ret (some (.inst (.ofSlot 3)))]).function.linked

end FlowFacts
