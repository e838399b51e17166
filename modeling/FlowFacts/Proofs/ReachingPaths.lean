import FlowFacts.Proofs.ContextQueries
import FlowFacts.Proofs.FactPaths

/-!
# Reaching definitions are the ones behind some path

An index reaches an edge if and only if some path leads from an instruction that defines it to the
source of the edge. An ordinary instruction defines its own index, and the head of a group of merges
defines those of the whole group; no instruction takes a definition away.

Main results:

* `Reaching.mem_extend`: what reaches the end of an instruction.
* `mem_reaching_iff`: what reaches an edge.
-/

namespace FlowFacts

namespace Reaching

variable {ctx : FlowContext} {inst : Instruction} {n d : Nat} {s t : IndexSet}

/-! ## Single instructions -/

theorem mem_foldl_insert {group : List (Nat × Instruction)} :
    d ∈ group.foldl (fun reaching merge => reaching.insert merge.1) s ↔
      d ∈ group.map Prod.fst ∨ d ∈ s := by
  induction group generalizing s with
  | nil => simp
  | cons merge group ih =>
    rw [List.foldl_cons, ih, SortedSet.mem_insert, List.map_cons, List.mem_cons]
    tauto

/-- What reaches the end of an instruction: what it defines, and what reached it. -/
theorem mem_extend (h : extend ctx inst n s = .ok t) : d ∈ t ↔ ctx.Defines inst n d ∨ d ∈ s := by
  unfold extend at h
  split_ifs at h with hmerge hdef
  · obtain ⟨head, hhead, h⟩ := bind_eq_ok h
    have hiff := FlowContext.isHead_iff hhead
    cases head with
    | false =>
      cases h
      exact (or_iff_right (FlowContext.not_defines hmerge (by simp [hiff]))).symm
    | true =>
      obtain ⟨group, hgroup, h⟩ := bind_eq_ok h
      cases h
      rw [mem_foldl_insert, FlowContext.defines_head (hiff.2 rfl) hgroup]
  · cases h
    rw [SortedSet.mem_insert, FlowContext.defines_ordinary (by simpa using hmerge)]
    simp [hdef]
  · cases h
    rw [FlowContext.defines_ordinary (by simpa using hmerge)]
    simp [hdef]

/-! ## Answers -/

/-- What a node defines is generated there, and nothing is killed. -/
theorem genKill (ctx : FlowContext) (d : Nat) :
    analysis.GenKill ctx (d ∈ ·)
      (fun e => ∃ inst, ctx.instruction? e.source = some inst ∧ ctx.Defines inst e.source d)
      (fun _ => False) where
  initial := SortedSet.not_mem_empty d
  component {e x v} _ hv := by
    obtain ⟨inst, xs, hinst, htransfer, hxs⟩ := Analysis.component_eq_some hv
    obtain ⟨t, ht, hxs'⟩ := bind_eq_ok htransfer
    cases hxs'
    obtain rfl := List.eq_of_mem_replicate (List.mem_of_getElem? hxs)
    rw [mem_extend ht]
    simp [hinst]

end Reaching

/-- A definition is on an edge that leaves an instruction, in an answer for any function, if and
    only if some path leads to the source of the edge from a node that defines it. -/
theorem mem_reaching_iff (f : Function) (config : SolverConfig) {s : Solution IndexSet}
    (h : solve Reaching.analysis f config = .ok s) {e : Edge}
    (he : e ∈ (FlowGraph.build f .forward).edges) (hsource : 1 ≤ e.source) (d : Nat) :
    d ∈ s.value e ↔
      ∃ n inst, 1 ≤ n ∧ (FlowGraph.build f .forward).instruction? f n = some inst ∧
        FlowContext.Defines ⟨f, FlowGraph.build f .forward⟩ inst n d ∧
        Relation.ReflTransGen (FlowGraph.build f .forward).Leads n e.source := by
  have hgraph : s.graph = FlowGraph.build f .forward := (solve_graph h).1
  rw [← hgraph] at he ⊢
  rw [solve_fact_iff (IndexSet.isFact_mem d) Reaching.regular.monotone h (Reaching.genKill _ d) he]
  rw [FlowGraph.carried_iff_leads
    (G := fun n => ∃ inst, FlowContext.instruction? ⟨f, s.graph⟩ n = some inst ∧
      FlowContext.Defines ⟨f, s.graph⟩ inst n d) he hsource (solve_wellFormed h)]
  constructor
  · rintro ⟨n, hn, ⟨inst, hinst, hdefines⟩, hpath⟩
    exact ⟨n, inst, hn, hinst, hdefines, hpath⟩
  · rintro ⟨n, inst, hn, hinst, hdefines, hpath⟩
    exact ⟨n, hn, ⟨inst, hinst, hdefines⟩, hpath⟩

/-- In `swapLoop` the second merge at node 5 is a definition that some path brings to the end of the
    loop, and that no path brings to the jump in front of it. -/
theorem reaching_swapLoop :
    ∃ s, solve Reaching.analysis swapLoop { order := .lifo } = .ok s ∧
      (5 ∈ s.value ⟨7, 4, 3⟩ ∧
        ∃ n inst, 1 ≤ n ∧ (FlowGraph.build swapLoop .forward).instruction? swapLoop n = some inst ∧
          FlowContext.Defines ⟨swapLoop, FlowGraph.build swapLoop .forward⟩ inst n 5 ∧
          Relation.ReflTransGen (FlowGraph.build swapLoop .forward).Leads n 7) ∧
      (5 ∉ s.value ⟨3, 4, 2⟩ ∧
        ¬ ∃ n inst, 1 ≤ n ∧ (FlowGraph.build swapLoop .forward).instruction? swapLoop n = some inst ∧
          FlowContext.Defines ⟨swapLoop, FlowGraph.build swapLoop .forward⟩ inst n 5 ∧
          Relation.ReflTransGen (FlowGraph.build swapLoop .forward).Leads n 3) := by
  obtain ⟨s, hs⟩ : ∃ s, solve Reaching.analysis swapLoop { order := .lifo } = .ok s :=
    exists_ok_of_toBool (by decide +kernel)
  have hvalues : (solve Reaching.analysis swapLoop { order := .lifo }).toOption.map (fun s =>
      (decide (5 ∈ s.value ⟨7, 4, 3⟩), decide (5 ∈ s.value ⟨3, 4, 2⟩))) = some (true, false) := by
    decide +kernel
  simp only [hs, Except.toOption, Option.map_some, Option.some.injEq, Prod.mk.injEq,
    decide_eq_true_eq, decide_eq_false_iff_not] at hvalues
  obtain ⟨hin, hout⟩ := hvalues
  have hback : (⟨7, 4, 3⟩ : Edge) ∈ (FlowGraph.build swapLoop .forward).edges := by decide +kernel
  have hentry : (⟨3, 4, 2⟩ : Edge) ∈ (FlowGraph.build swapLoop .forward).edges := by decide +kernel
  refine ⟨s, hs, ⟨hin, ?_⟩, ⟨hout, fun h => hout ?_⟩⟩
  · exact (mem_reaching_iff swapLoop _ hs hback (by decide) 5).1 hin
  · exact (mem_reaching_iff swapLoop _ hs hentry (by decide) 5).2 h

end FlowFacts
