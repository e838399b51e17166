import FlowFacts.Proofs.GraphTables
import Mathlib.Data.Prod.Basic

/-!
# Forward and backward graphs

The forward and the backward graph of a function come from the same transfers of control, entered
in the same order. When a transfer is passed over in one graph, because one of its instructions has
no index or its edge is there already, it is passed over in the other one as well. So the numbers of
the edges never drift apart: apart from the edge of the virtual node, which comes last, edges with
the same number are each other's reverse.

Main results:

* `Opposite.extend`, `Opposite.foldl_extend`: two graphs stay opposite while edges are added.
* `mirrors_build`: the two graphs of a function, whether it is well formed or not.
-/

namespace FlowFacts

/-- The edge with the same number in the other direction. -/
def Edge.flip (e : Edge) : Edge := ⟨e.target, e.source, e.id⟩

namespace FlowGraph

/-! ## Lockstep -/

/-- Two graphs over the same instructions whose edges are each other's reverse. -/
structure Opposite (g h : FlowGraph) : Prop where
  insts : h.insts = g.insts
  edges : h.edges = g.edges.map Edge.flip

namespace Opposite

variable {g h : FlowGraph}

theorem ends_eq (hgh : Opposite g h) : h.ends = g.ends.map Prod.swap := by
  rw [ends, ends, hgh.edges, Array.toList_map, List.map_map, List.map_map]
  rfl

theorem swap_mem_ends (hgh : Opposite g h) {p : Nat × Nat} : p.swap ∈ h.ends ↔ p ∈ g.ends := by
  rw [hgh.ends_eq, List.mem_map_of_injective Prod.swap_injective]

/-- A new edge gets the same number in both graphs. -/
theorem withEdge (hgh : Opposite g h) (p : Nat × Nat) :
    Opposite (g.withEdge p) (h.withEdge p.swap) where
  insts := hgh.insts
  edges := by
    simp only [FlowGraph.withEdge, hgh.edges, Array.map_push, Array.size_map]
    rfl

/-- An edge is new in both graphs or in neither. -/
theorem extend (hgh : Opposite g h) (p : Nat × Nat) : Opposite (g.extend p) (h.extend p.swap) := by
  unfold FlowGraph.extend
  simp only [hgh.swap_mem_ends]
  split_ifs
  · exact hgh
  · exact hgh.withEdge p

theorem foldl_extend (hgh : Opposite g h) (ps : List (Nat × Nat)) :
    Opposite (ps.foldl FlowGraph.extend g) ((ps.map Prod.swap).foldl FlowGraph.extend h) := by
  induction ps generalizing g h with
  | nil => exact hgh
  | cons p ps ih => exact ih (hgh.extend p)

end Opposite

/-- A transfer of control joins the same two nodes in both directions, or none. -/
theorem swap_nodes_forward (insts : Array InstId) (flow : InstId × InstId) :
    ((nodesOf insts flow).map Direction.forward.orient).map Prod.swap =
      (nodesOf insts flow).map Direction.backward.orient := by
  rw [Option.map_map]
  rfl

/-- Before the edge of the virtual node is added, the graphs of a function are opposite. -/
theorem opposite_ofEnds (f : Function) :
    Opposite (ofEnds .forward (numbering f) (flowEnds f .forward))
      (ofEnds .backward (numbering f) (flowEnds f .backward)) := by
  have hstart : Opposite (ofEnds .forward (numbering f) []) (ofEnds .backward (numbering f) []) :=
    ⟨rfl, by simp [ofEnds]⟩
  have hrun := hstart.foldl_extend
    ((flows f).filterMap fun flow => (nodesOf (numbering f) flow).map Direction.forward.orient)
  rw [List.map_filterMap, foldl_extend_ofEnds, foldl_extend_ofEnds] at hrun
  simp only [swap_nodes_forward] at hrun
  exact hrun

/-! ## The edge of the virtual node -/

/-- The edges that do not leave the virtual node, by number. -/
def innerEdges (g : FlowGraph) : List Edge :=
  g.edges.toList.filter fun e => e.source ≠ virtualEntry

variable {f : Function} {direction : Direction}

theorem edges_build (f : Function) (direction : Direction) :
    (build f direction).edges.toList =
      (ofEnds direction (numbering f) (flowEnds f direction)).edges.toList ++
        ((entryNode? f direction).map fun node =>
          ⟨virtualEntry, node, (flowEnds f direction).length⟩).toList := by
  rw [build_eq]
  cases entryNode? f direction with
  | none => simp
  | some node => simp [ofEnds, List.zipIdx_append]

/-- Apart from the edge of the virtual node, the graph of a function has the edges of its
    transfers of control. -/
theorem innerEdges_build (f : Function) (direction : Direction) :
    (build f direction).innerEdges =
      (ofEnds direction (numbering f) (flowEnds f direction)).edges.toList := by
  have hends : (ofEnds direction (numbering f) (flowEnds f direction)).ends =
      flowEnds f direction := ends_ofEnds
  have hinner : ∀ e ∈ (ofEnds direction (numbering f) (flowEnds f direction)).edges.toList,
      decide (e.source ≠ virtualEntry) = true := by
    intro e he
    have hmem : (e.source, e.target) ∈ flowEnds f direction := by
      rw [← hends]
      exact List.mem_map_of_mem he
    have hpos := (mem_nodes.1 (flowEnds_mem_nodes hmem).1).1
    exact decide_eq_true (Nat.pos_iff_ne_zero.1 hpos)
  rw [innerEdges, edges_build, List.filter_append, List.filter_eq_self.2 hinner]
  cases entryNode? f direction <;> simp

/-- In front of the edge of the virtual node, an edge is found by its number. -/
theorem getElem?_edges_of_lt {k : Nat} (hk : k < (build f direction).innerEdges.length) :
    (build f direction).edges[k]? = (build f direction).innerEdges[k]? := by
  rw [innerEdges_build] at hk ⊢
  rw [← Array.getElem?_toList, edges_build, List.getElem?_append_left hk]

/-! ## Mirror images -/

/-- The edge of the virtual node, if there is one, comes behind all others. -/
structure EntryLast (g : FlowGraph) : Prop where
  /-- The other edges have the smallest numbers. -/
  inner_iff : ∀ e ∈ g.edges, e.source ≠ virtualEntry ↔ e.id < g.innerEdges.length
  /-- No number is larger. -/
  id_le : ∀ e ∈ g.edges, e.source = virtualEntry → ∀ d ∈ g.edges, d.id ≤ e.id

/-- Two graphs that, apart from the edges of their virtual nodes, are mirror images edge by edge. -/
structure Mirrors (g h : FlowGraph) : Prop where
  /-- An instruction has the same index in both. -/
  indexOf? : ∀ id, g.indexOf? id = h.indexOf? id
  /-- At each index there is the same instruction. -/
  instAt? : ∀ n, g.instAt? n = h.instAt? n
  /-- There are as many edges in both. -/
  length_eq : g.innerEdges.length = h.innerEdges.length
  /-- Edges with the same number are each other's reverse. -/
  reverse : ∀ k < g.innerEdges.length,
    ∃ a b, g.edges[k]? = some ⟨a, b, k⟩ ∧ h.edges[k]? = some ⟨b, a, k⟩

theorem entryLast_build (f : Function) (direction : Direction) :
    (build f direction).EntryLast := by
  have hg := wellFormed_build f direction
  have hlength : (build f direction).innerEdges.length = (flowEnds f direction).length := by
    rw [innerEdges_build, Array.length_toList]
    simp [ofEnds]
  constructor
  · intro e he
    rw [hlength, Ne, ← hg.entry_iff he, entryEdge_build]
    rcases edge_build_cases he with ⟨-, hid⟩ | ⟨hentry, hid⟩
    · simp only [Option.map_eq_some_iff, hid, iff_true]
      rintro ⟨-, -, heq⟩
      omega
    · rw [← entryEdge_build, (entryEnds_mem hentry).2.2.2, hid]
      simp
  · intro e he hsource d hd
    have hentry := (hg.entry_iff he).2 hsource
    rw [entryEdge_build, Option.map_eq_some_iff] at hentry
    obtain ⟨-, -, hid⟩ := hentry
    rcases edge_build_cases hd with ⟨-, hlt⟩ | ⟨-, heq⟩
    · omega
    · omega

/-- For every function, well formed or not, the backward graph mirrors the forward graph edge by
    edge, and in both the edge of the virtual node comes last. -/
theorem mirrors_build (f : Function) :
    (build f .forward).Mirrors (build f .backward) ∧
      ∀ direction, (build f direction).EntryLast := by
  have hopposite := opposite_ofEnds f
  have hinner : (build f .backward).innerEdges = (build f .forward).innerEdges.map Edge.flip := by
    rw [innerEdges_build, innerEdges_build, hopposite.edges, Array.toList_map]
  have hlength : (build f .forward).innerEdges.length = (build f .backward).innerEdges.length := by
    rw [hinner, List.length_map]
  refine ⟨⟨fun _ => rfl, fun _ => rfl, hlength, ?_⟩, entryLast_build f⟩
  intro k hk
  have hforward := getElem?_edges_of_lt hk
  have hbackward := getElem?_edges_of_lt (hlength ▸ hk)
  rw [List.getElem?_eq_getElem hk] at hforward
  rw [hinner, List.getElem?_map, List.getElem?_eq_getElem hk] at hbackward
  have hid := (wellFormed_build f .forward).id_eq hforward
  generalize (build f .forward).innerEdges[k] = e at hforward hbackward hid
  obtain ⟨a, b, id⟩ := e
  subst hid
  exact ⟨a, b, hforward, hbackward⟩

/-- The loop in `stray` has the same number in both graphs, though its edge is its own reverse, and
    only the edges of the virtual nodes differ. -/
example : (build stray .backward).ends = [(5, 4), (4, 4), (0, 4)] := by decide +kernel

end FlowGraph

end FlowFacts
