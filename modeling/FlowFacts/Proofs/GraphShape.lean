import FlowFacts.Analysis.Context
import Mathlib.Data.List.Induction
import Mathlib.Data.List.Nodup

/-!
# The shape of instruction graphs

Whatever the function looks like, the edges of its graph are numbered by their place, lead from a
node to the node of an instruction, and start at the virtual node only for the entry edge.

Main result: `wellFormed_build`, that every graph built from a function has this shape.
-/

namespace FlowFacts.FlowGraph

variable {g : FlowGraph} {e : Edge} {n : Nat}

/-! ## Queries -/

theorem mem_nodes : n ∈ g.nodes ↔ 1 ≤ n ∧ n ≤ g.insts.size := by
  rw [nodes, List.mem_range'_1]
  omega

theorem length_nodes (g : FlowGraph) : g.nodes.length = g.insts.size := List.length_range'

theorem mem_outgoing : e ∈ g.outgoing n ↔ e ∈ g.edges ∧ e.source = n := by
  simp [outgoing]

theorem mem_incoming : e ∈ g.incoming n ↔ e ∈ g.edges ∧ e.target = n := by
  simp [incoming]

/-- Only nodes of instructions have an instruction. -/
theorem mem_nodes_of_instruction? {f : Function} {inst : Instruction}
    (h : g.instruction? f n = some inst) : n ∈ g.nodes := by
  obtain ⟨id, hid, -⟩ := Option.bind_eq_some_iff.1 h
  cases n with
  | zero => cases hid
  | succ n =>
    obtain ⟨hlt, -⟩ := Array.getElem?_eq_some_iff.1 hid
    exact mem_nodes.2 ⟨by omega, by omega⟩

/-- Indices are counted from 1. -/
theorem indexIn_bounds {insts : Array InstId} {id : InstId} {k : Nat}
    (h : indexIn insts id = some k) : 1 ≤ k ∧ k ≤ insts.size := by
  obtain ⟨j, hj, rfl⟩ := Option.map_eq_some_iff.1 h
  obtain ⟨hlt, -⟩ := List.findIdx?_eq_some_iff_getElem.1 hj
  rw [List.length_reverse, Array.length_toList] at hlt
  omega

theorem indexOf?_mem_nodes {id : InstId} {k : Nat} (h : g.indexOf? id = some k) : k ∈ g.nodes :=
  mem_nodes.2 (indexIn_bounds h)

/-! ## Well-formed graphs -/

/-- The shape of a graph: edges are numbered by their place and lead to nodes of instructions, and
    the entry edge is the one that leaves the virtual node. -/
structure WellFormed (g : FlowGraph) : Prop where
  /-- An edge carries its place. -/
  id_eq : ∀ {i : Nat} {e : Edge}, g.edges[i]? = some e → e.id = i
  /-- An edge leaves the virtual node or the node of an instruction. -/
  source_mem : ∀ {e : Edge}, e ∈ g.edges → e.source = virtualEntry ∨ e.source ∈ g.nodes
  /-- An edge enters the node of an instruction. -/
  target_mem : ∀ {e : Edge}, e ∈ g.edges → e.target ∈ g.nodes
  /-- The entry edge is the one that leaves the virtual node. -/
  entry_iff : ∀ {e : Edge}, e ∈ g.edges → (g.entryEdge = some e.id ↔ e.source = virtualEntry)
  /-- The entry edge is an edge. -/
  entry_lt : ∀ {id : Nat}, g.entryEdge = some id → id < g.edgeCount

namespace WellFormed

theorem getElem?_id (hg : g.WellFormed) (he : e ∈ g.edges) : g.edges[e.id]? = some e := by
  obtain ⟨i, hi⟩ := Array.mem_iff_getElem?.1 he
  rwa [hg.id_eq hi]

theorem id_lt (hg : g.WellFormed) (he : e ∈ g.edges) : e.id < g.edgeCount := by
  obtain ⟨hlt, -⟩ := Array.getElem?_eq_some_iff.1 (hg.getElem?_id he)
  exact hlt

theorem eq_of_id_eq (hg : g.WellFormed) {d : Edge} (he : e ∈ g.edges) (hd : d ∈ g.edges)
    (h : e.id = d.id) : e = d := by
  have hed := hg.getElem?_id he
  rw [h, hg.getElem?_id hd] at hed
  exact (Option.some.inj hed).symm

/-- Edges are listed by number. -/
theorem pairwise_id (hg : g.WellFormed) : g.edges.toList.Pairwise fun d e => d.id < e.id := by
  rw [List.pairwise_iff_getElem]
  intro i j hi hj hij
  have hd : (g.edges.toList[i]).id = i := hg.id_eq (by simp)
  have he : (g.edges.toList[j]).id = j := hg.id_eq (by simp)
  omega

theorem nodup_edges (hg : g.WellFormed) : g.edges.toList.Nodup :=
  hg.pairwise_id.imp fun hlt heq => Nat.ne_of_lt hlt (congrArg Edge.id heq)

theorem nodup_outgoing (hg : g.WellFormed) (n : Nat) : (g.outgoing n).Nodup :=
  hg.nodup_edges.filter _

end WellFormed

/-! ## Graphs of functions -/

/-- The ends of the edge from the virtual node, if there is one. -/
def entryEnds (f : Function) (direction : Direction) : List (Nat × Nat) :=
  ((entryNode? f direction).map fun node => (virtualEntry, node)).toList

theorem getElem?_edges_build (f : Function) (direction : Direction) (i : Nat) :
    (build f direction).edges[i]? =
      (flowEnds f direction ++ entryEnds f direction)[i]?.map fun p => ⟨p.1, p.2, i⟩ := by
  rw [build, List.getElem?_toArray, List.getElem?_map, List.getElem?_zipIdx, Option.map_map]
  simp [Function.comp_def, entryEnds]

theorem entryEdge_build (f : Function) (direction : Direction) :
    (build f direction).entryEdge =
      (entryNode? f direction).map fun _ => (flowEnds f direction).length := by
  rw [build, Option.map_map]
  rfl

/-- Both ends of an edge between instructions are nodes of instructions. -/
theorem flowEnds_mem_nodes {f : Function} {direction : Direction} {p : Nat × Nat}
    (h : p ∈ flowEnds f direction) :
    p.1 ∈ (build f direction).nodes ∧ p.2 ∈ (build f direction).nodes := by
  rw [flowEnds, List.mem_eraseDups, List.mem_filterMap] at h
  obtain ⟨flow, -, hflow⟩ := h
  obtain ⟨q, hq, rfl⟩ := Option.map_eq_some_iff.1 hflow
  obtain ⟨k, hk, hq⟩ := Option.bind_eq_some_iff.1 hq
  obtain ⟨l, hl, hq⟩ := Option.bind_eq_some_iff.1 hq
  cases hq
  have hk' : k ∈ (build f direction).nodes := mem_nodes.2 (indexIn_bounds hk)
  have hl' : l ∈ (build f direction).nodes := mem_nodes.2 (indexIn_bounds hl)
  cases direction with
  | forward => exact ⟨hk', hl'⟩
  | backward => exact ⟨hl', hk'⟩

theorem entryEnds_mem {f : Function} {direction : Direction} {p : Nat × Nat}
    (h : p ∈ entryEnds f direction) :
    p.1 = virtualEntry ∧ p.2 ∈ (build f direction).nodes ∧
      entryEnds f direction = [p] ∧
      (build f direction).entryEdge = some (flowEnds f direction).length := by
  rw [entryEdge_build, entryEnds] at *
  cases hnode : entryNode? f direction with
  | none => rw [hnode] at h; cases h
  | some node =>
    rw [hnode] at h
    obtain rfl := List.mem_singleton.1 h
    obtain ⟨id, -, hid⟩ := Option.bind_eq_some_iff.1 hnode
    exact ⟨rfl, mem_nodes.2 (indexIn_bounds hid), rfl, rfl⟩

/-- An edge stands among the edges between instructions, or it is the last one and leaves the
    virtual node. -/
theorem edge_build_cases {f : Function} {direction : Direction}
    (h : e ∈ (build f direction).edges) :
    ((e.source, e.target) ∈ flowEnds f direction ∧ e.id < (flowEnds f direction).length) ∨
    ((e.source, e.target) ∈ entryEnds f direction ∧ e.id = (flowEnds f direction).length) := by
  obtain ⟨i, hi⟩ := Array.mem_iff_getElem?.1 h
  rw [getElem?_edges_build] at hi
  obtain ⟨p, hp, rfl⟩ := Option.map_eq_some_iff.1 hi
  by_cases hlt : i < (flowEnds f direction).length
  · rw [List.getElem?_append_left hlt] at hp
    exact .inl ⟨List.mem_of_getElem? hp, hlt⟩
  · rw [List.getElem?_append_right (by omega)] at hp
    have hmem := List.mem_of_getElem? hp
    obtain ⟨-, -, hone, -⟩ := entryEnds_mem hmem
    obtain ⟨hlen, -⟩ := List.getElem?_eq_some_iff.1 hp
    rw [hone, List.length_singleton] at hlen
    exact .inr ⟨hmem, by simp only; omega⟩

/-- Every graph of a function is well formed, also when the function is not. -/
theorem wellFormed_build (f : Function) (direction : Direction) :
    (build f direction).WellFormed where
  id_eq hi := by
    rw [getElem?_edges_build] at hi
    obtain ⟨p, -, rfl⟩ := Option.map_eq_some_iff.1 hi
    rfl
  source_mem he := by
    rcases edge_build_cases he with ⟨hflow, -⟩ | ⟨hentry, -⟩
    · exact .inr (flowEnds_mem_nodes hflow).1
    · exact .inl (entryEnds_mem hentry).1
  target_mem he := by
    rcases edge_build_cases he with ⟨hflow, -⟩ | ⟨hentry, -⟩
    · exact (flowEnds_mem_nodes hflow).2
    · exact (entryEnds_mem hentry).2.1
  entry_iff {e} he := by
    rcases edge_build_cases he with ⟨hflow, hid⟩ | ⟨hentry, hid⟩
    · have hsource : 1 ≤ e.source := (mem_nodes.1 (flowEnds_mem_nodes hflow).1).1
      rw [entryEdge_build, Option.map_eq_some_iff]
      constructor
      · rintro ⟨-, -, hlen⟩
        omega
      · intro hzero
        rw [hzero] at hsource
        exact absurd hsource (Nat.not_succ_le_zero 0)
    · obtain ⟨hsource, -, -, hedge⟩ := entryEnds_mem hentry
      exact ⟨fun _ => hsource, fun _ => by rw [hedge, hid]⟩
  entry_lt {id} hid := by
    have hsize : (build f direction).edgeCount =
        (flowEnds f direction).length + (entryEnds f direction).length := by
      simp [edgeCount, build, entryEnds]
    rw [entryEdge_build] at hid
    obtain ⟨node, hnode, rfl⟩ := Option.map_eq_some_iff.1 hid
    rw [hsize, entryEnds, hnode]
    exact Nat.lt_succ_self _

/-! ## Ends of edges -/

/-- The ends of the edges, in order. -/
def ends (g : FlowGraph) : List (Nat × Nat) := g.edges.toList.map fun e => (e.source, e.target)

theorem mem_ends {g : FlowGraph} {p : Nat × Nat} :
    p ∈ g.ends ↔ ∃ e ∈ g.edges, e.source = p.1 ∧ e.target = p.2 := by
  simp [ends, Prod.ext_iff]

section

variable {α : Type} [BEq α] [LawfulBEq α]

/-- Only a first occurrence is kept. -/
theorem eraseDups_concat (xs : List α) (x : α) [Decidable (x ∈ xs)] :
    (xs ++ [x]).eraseDups = if x ∈ xs then xs.eraseDups else xs.eraseDups ++ [x] := by
  rw [List.eraseDups_append, List.removeAll]
  split_ifs with hx
  · simp [hx]
  · simp [hx, List.eraseDups_cons]

theorem nodup_eraseDups (xs : List α) : xs.eraseDups.Nodup := by
  classical
  induction xs using List.reverseRecOn with
  | nil => simp
  | append_singleton xs x ih =>
    rw [eraseDups_concat]
    split_ifs with hx
    · exact ih
    · rw [List.nodup_append]
      refine ⟨ih, List.nodup_singleton x, ?_⟩
      rintro y hy _ hz rfl
      rw [List.mem_singleton] at hz
      exact hx (hz ▸ List.mem_eraseDups.1 hy)

end

theorem ends_build (f : Function) (direction : Direction) :
    (build f direction).ends = flowEnds f direction ++ entryEnds f direction := by
  refine List.ext_getElem? fun i => ?_
  rw [ends, List.getElem?_map, Array.getElem?_toList, getElem?_edges_build, Option.map_map]
  exact Option.map_id'

theorem nodup_ends_build (f : Function) (direction : Direction) :
    (build f direction).ends.Nodup := by
  rw [ends_build, List.nodup_append]
  refine ⟨nodup_eraseDups _, ?_, ?_⟩
  · cases hentry : entryEnds f direction with
    | nil => exact List.nodup_nil
    | cons p rest =>
      obtain ⟨-, -, hone, -⟩ := entryEnds_mem (hentry ▸ List.mem_cons_self (a := p) (l := rest))
      rw [← hentry, hone]
      exact List.nodup_singleton p
  · -- Edges between instructions do not start at the virtual node.
    rintro p hflow _ hentry rfl
    have hsource := (mem_nodes.1 (flowEnds_mem_nodes hflow).1).1
    rw [(entryEnds_mem hentry).1] at hsource
    exact absurd hsource (Nat.not_succ_le_zero 0)

end FlowFacts.FlowGraph
