import FlowFacts.Analysis.Reaching
import FlowFacts.Proofs.Fixpoint

/-!
# Graphs edge by edge

The graph of a function is defined by the list of its edges, and lookups search that list. The same
graph can be built one edge at a time: a transfer of control whose instructions have no index, or
whose edge is there already, is passed over, and every other one is entered into a list of edges, a
list at each of its two nodes and a set of pairs. `GraphTables` is a graph in this form. Access to a
table is checked, and the construction stops at an access that is out of range; there is none,
whatever the function looks like.

Main results:

* `GraphTables.Represents.exists_addEdge`: what one more edge does to the tables.
* `GraphTables.exists_build`: the construction succeeds, and the tables answer as the graph does.
* `FlowGraph.valid_build`: edges and lookups of a graph fit together.
* `graph_representation`: nothing that is looked up in a graph or in a store of values over it
  is out of range.
-/

namespace FlowFacts

/-! ## Construction -/

/-- A graph with tables for its lookups. -/
structure GraphTables where
  /-- Which way the edges run. -/
  direction : Direction
  /-- The instruction at each index; the virtual node has none. -/
  insts : Array (Option InstId)
  /-- The index of the instruction that carries a number. -/
  index : OrderedMap InstId Nat
  /-- The edges by number. -/
  edges : Array Edge
  /-- The edges into each node. -/
  incoming : Array (List Edge)
  /-- The edges out of each node. -/
  outgoing : Array (List Edge)
  /-- The ends of the edges. -/
  existing : List (Nat × Nat)
  /-- The number of the edge from the virtual node. -/
  entryEdge : Option Nat

namespace GraphTables

/-- Counts instructions, given by their numbers. The last index stays if a number occurs again. -/
def assign (direction : Direction) (ids : List InstId) : GraphTables where
  direction := direction
  insts := (none :: ids.map some).toArray
  index := .ofList (ids.zipIdx 1)
  edges := #[]
  incoming := Array.replicate (ids.length + 1) []
  outgoing := Array.replicate (ids.length + 1) []
  existing := []
  entryEdge := none

/-- The node of an instruction, or the virtual node. -/
def node? (t : GraphTables) : Option InstId → Option Nat
  | none => some FlowGraph.virtualEntry
  | some id => t.index.get? id

/-- Enters an edge into the list of a node; fails if there is no such node. -/
def enter (table : Array (List Edge)) (node : Nat) (e : Edge) : Option (Array (List Edge)) :=
  if node < table.size then some (table.modify node (· ++ [e])) else none

/-- Enters an edge into all tables. -/
def insert (t : GraphTables) (ends : Nat × Nat) : Option GraphTables := do
  let e : Edge := ⟨ends.1, ends.2, t.edges.size⟩
  let incoming ← enter t.incoming ends.2 e
  let outgoing ← enter t.outgoing ends.1 e
  return { t with
    edges := t.edges.push e
    incoming := incoming
    outgoing := outgoing
    existing := ends :: t.existing }

/-- Adds the edge between two instructions, or from or to the virtual node, and returns its number.
    Without an index for both, or if the edge exists, nothing is added. -/
def addEdge (t : GraphTables) (source target : Option InstId) :
    Option (GraphTables × Option Nat) :=
  match t.node? source, t.node? target with
  | some a, some b =>
    if (a, b) ∈ t.existing then some (t, none)
    else (t.insert (a, b)).map fun t' => (t', some t.edges.size)
  | _, _ => some (t, none)

/-- Adds the edge for a transfer of control. -/
def addFlow (t : GraphTables) (flow : InstId × InstId) : Option GraphTables :=
  match t.direction with
  | .forward => (t.addEdge (some flow.1) (some flow.2)).map Prod.fst
  | .backward => (t.addEdge (some flow.2) (some flow.1)).map Prod.fst

/-- The graph of a function, transfer by transfer, and the edge from the virtual node last. -/
def build (f : Function) (direction : Direction) : Option GraphTables := do
  let t ← (FlowGraph.flows f).foldlM addFlow (assign direction (f.instructions.map Instruction.id))
  match FlowGraph.entryInst? f direction with
  | none => return t
  | some id =>
    let (t, entryEdge) ← t.addEdge none (some id)
    return { t with entryEdge := entryEdge }

/-- The tables answer as the graph does. -/
structure Represents (t : GraphTables) (g : FlowGraph) : Prop where
  direction : t.direction = g.direction
  instAt? : ∀ n, t.insts[n]?.join = g.instAt? n
  nodeCount : t.insts.size = g.nodeCount
  indexOf? : ∀ id, t.index.get? id = g.indexOf? id
  edges : t.edges = g.edges
  incoming : ∀ n, t.incoming[n]? = if n < g.nodeCount then some (g.incoming n) else none
  outgoing : ∀ n, t.outgoing[n]? = if n < g.nodeCount then some (g.outgoing n) else none
  existing : ∀ p, p ∈ t.existing ↔ p ∈ g.ends
  entryEdge : t.entryEdge = g.entryEdge

end GraphTables

/-! ## Graphs that grow -/

namespace FlowGraph

variable {g : FlowGraph} {p : Nat × Nat} {direction : Direction} {insts : Array InstId}
  {ends : List (Nat × Nat)}

/-- The graph with edges between the given ends, and no entry. -/
def ofEnds (direction : Direction) (insts : Array InstId) (ends : List (Nat × Nat)) : FlowGraph :=
  ⟨direction, insts, (ends.zipIdx.map fun e => ⟨e.1.1, e.1.2, e.2⟩).toArray, none⟩

/-- The graph with one more edge. -/
def withEdge (g : FlowGraph) (p : Nat × Nat) : FlowGraph :=
  { g with edges := g.edges.push ⟨p.1, p.2, g.edges.size⟩ }

/-- The graph with one more edge, unless there is one between the same ends. -/
def extend (g : FlowGraph) (p : Nat × Nat) : FlowGraph :=
  if p ∈ g.ends then g else g.withEdge p

/-- The node of an instruction, or the virtual node. -/
def node? (g : FlowGraph) : Option InstId → Option Nat
  | none => some virtualEntry
  | some id => g.indexOf? id

/-- The nodes that an edge would join, if both exist. -/
def nodes? (g : FlowGraph) (source target : Option InstId) : Option (Nat × Nat) :=
  (g.node? source).bind fun a => (g.node? target).map fun b => (a, b)

theorem node?_lt {id : Option InstId} {n : Nat} (h : g.node? id = some n) : n < g.nodeCount := by
  cases id with
  | none =>
    obtain rfl : virtualEntry = n := Option.some.inj h
    exact Nat.succ_pos _
  | some id => exact Nat.lt_succ_of_le (indexIn_bounds h).2

theorem nodesOf_eq_nodes? (flow : InstId × InstId) :
    nodesOf g.insts flow = g.nodes? (some flow.1) (some flow.2) := by
  show ((g.indexOf? flow.1).bind fun a => (g.indexOf? flow.2).bind fun b => some (a, b)) =
    (g.indexOf? flow.1).bind fun a => (g.indexOf? flow.2).map fun b => (a, b)
  cases g.indexOf? flow.1 <;> cases g.indexOf? flow.2 <;> rfl

theorem map_swap_nodes? (source target : Option InstId) :
    (g.nodes? source target).map Prod.swap = g.nodes? target source := by
  unfold nodes?
  cases g.node? source <;> cases g.node? target <;> rfl

theorem insts_extend (g : FlowGraph) (p : Nat × Nat) : (g.extend p).insts = g.insts := by
  unfold extend
  split_ifs
  · rfl
  · rfl

theorem direction_extend (g : FlowGraph) (p : Nat × Nat) :
    (g.extend p).direction = g.direction := by
  unfold extend
  split_ifs
  · rfl
  · rfl

theorem ends_ofEnds : (ofEnds direction insts ends).ends = ends := by
  have hcomp : ((fun e : Edge => (e.source, e.target)) ∘
      fun e : (Nat × Nat) × Nat => (⟨e.1.1, e.1.2, e.2⟩ : Edge)) = Prod.fst := rfl
  rw [FlowGraph.ends, ofEnds, List.toList_toArray, List.map_map, hcomp, List.zipIdx_map_fst]

theorem withEdge_ofEnds :
    (ofEnds direction insts ends).withEdge p = ofEnds direction insts (ends ++ [p]) := by
  simp [withEdge, ofEnds, List.zipIdx_append]

theorem incoming_withEdge (n : Nat) : (g.withEdge p).incoming n =
    g.incoming n ++ if p.2 = n then [⟨p.1, p.2, g.edges.size⟩] else [] := by
  simp only [incoming, withEdge, Array.toList_push, List.filter_append, List.filter_singleton,
    Bool.cond_decide]

theorem outgoing_withEdge (n : Nat) : (g.withEdge p).outgoing n =
    g.outgoing n ++ if p.1 = n then [⟨p.1, p.2, g.edges.size⟩] else [] := by
  simp only [outgoing, withEdge, Array.toList_push, List.filter_append, List.filter_singleton,
    Bool.cond_decide]

theorem ends_withEdge : (g.withEdge p).ends = g.ends ++ [p] := by
  simp [FlowGraph.ends, withEdge]

/-- The edge from the virtual node comes last in the graph of a function. -/
theorem build_eq (f : Function) (direction : Direction) :
    build f direction = (entryNode? f direction).elim
      (ofEnds direction (numbering f) (flowEnds f direction)) fun node =>
        { ofEnds direction (numbering f) (flowEnds f direction ++ [(virtualEntry, node)]) with
          entryEdge := some (flowEnds f direction).length } := by
  unfold build
  cases entryNode? f direction with
  | none => simp [ofEnds]
  | some node => simp [ofEnds]

/-- Adding edges one by one leaves out repeated ones. -/
theorem foldl_extend_ofEnds (ps : List (Nat × Nat)) :
    ps.foldl extend (ofEnds direction insts []) = ofEnds direction insts ps.eraseDups := by
  induction ps using List.reverseRecOn with
  | nil => rfl
  | append_singleton ps p ih =>
    rw [List.foldl_concat, ih, extend, ends_ofEnds, eraseDups_concat]
    simp only [List.mem_eraseDups]
    split_ifs
    · rfl
    · exact withEdge_ofEnds

end FlowGraph

/-! ## Tables that grow -/

namespace GraphTables

variable {t : GraphTables} {g : FlowGraph} {direction : Direction}

theorem get?_index (ids : List InstId) (id : InstId) :
    (OrderedMap.ofList (ids.zipIdx 1)).get? id = FlowGraph.indexIn ids.toArray id := by
  induction ids using List.reverseRecOn with
  | nil => rfl
  | append_singleton ids x ih =>
    unfold OrderedMap.ofList at ih ⊢
    rw [List.zipIdx_append, List.foldl_append, List.zipIdx_singleton, List.foldl_cons,
      List.foldl_nil, OrderedMap.get?_insert, ih]
    -- The index that is written last stays, and a search from the end finds the same one.
    unfold FlowGraph.indexIn
    rw [List.toList_toArray, List.toList_toArray, List.reverse_append, List.reverse_singleton,
      List.singleton_append, List.idxOf?_cons]
    by_cases hx : x = id
    · simp [hx, Nat.add_comm]
    · simp only [hx, if_false, beq_iff_eq, Option.map_map]
      congr 1
      funext k
      simp

/-- Before the first edge the tables are those of the graph without edges. -/
theorem represents_assign (direction : Direction) (ids : List InstId) :
    (assign direction ids).Represents (.ofEnds direction ids.toArray []) where
  direction := rfl
  instAt? n := by
    cases n with
    | zero => rfl
    | succ k =>
      show (none :: ids.map some).toArray[k + 1]?.join = ids.toArray[k]?
      rw [List.getElem?_toArray, List.getElem?_toArray, List.getElem?_cons_succ,
        List.getElem?_map]
      cases ids[k]? <;> rfl
  nodeCount := by simp [assign, FlowGraph.nodeCount, FlowGraph.ofEnds]
  indexOf? := get?_index ids
  edges := rfl
  incoming n := by
    simp [assign, FlowGraph.nodeCount, FlowGraph.ofEnds, FlowGraph.incoming,
      Array.getElem?_replicate]
  outgoing n := by
    simp [assign, FlowGraph.nodeCount, FlowGraph.ofEnds, FlowGraph.outgoing,
      Array.getElem?_replicate]
  existing p := by
    rw [FlowGraph.ends_ofEnds]
    rfl
  entryEdge := rfl

theorem exists_enter {table : Array (List Edge)} {count node : Nat} {rows : Nat → List Edge}
    (h : ∀ n, table[n]? = if n < count then some (rows n) else none) (hnode : node < count)
    (e : Edge) :
    ∃ table', enter table node e = some table' ∧ ∀ n, table'[n]? =
      if n < count then some (rows n ++ if node = n then [e] else []) else none := by
  have hsize : node < table.size := by
    have hrow := h node
    rw [if_pos hnode] at hrow
    exact (Array.getElem?_eq_some_iff.1 hrow).1
  refine ⟨_, if_pos hsize, fun n => ?_⟩
  rw [Array.getElem?_modify, h n]
  by_cases hn : node = n
  · subst hn
    simp [hnode]
  · simp [hn]

namespace Represents

/-- A new edge between nodes is entered into all tables. -/
theorem exists_insert (h : t.Represents g) {p : Nat × Nat} (hsource : p.1 < g.nodeCount)
    (htarget : p.2 < g.nodeCount) :
    ∃ t', t.insert p = some t' ∧ t'.Represents (g.withEdge p) := by
  obtain ⟨incoming, hincoming, hin⟩ :=
    exists_enter h.incoming htarget ⟨p.1, p.2, t.edges.size⟩
  obtain ⟨outgoing, houtgoing, hout⟩ :=
    exists_enter h.outgoing hsource ⟨p.1, p.2, t.edges.size⟩
  have hinsert : t.insert p = some { t with
      edges := t.edges.push ⟨p.1, p.2, t.edges.size⟩
      incoming := incoming
      outgoing := outgoing
      existing := p :: t.existing } := by
    unfold insert
    simp only [hincoming, houtgoing]
    rfl
  refine ⟨_, hinsert, h.direction, h.instAt?, h.nodeCount, h.indexOf?, ?_, fun n => ?_,
    fun n => ?_, fun q => ?_, h.entryEdge⟩
  · simp only [h.edges]
    rfl
  · rw [FlowGraph.incoming_withEdge, ← h.edges]
    exact hin n
  · rw [FlowGraph.outgoing_withEdge, ← h.edges]
    exact hout n
  · rw [FlowGraph.ends_withEdge, List.mem_append, List.mem_singleton, List.mem_cons, or_comm,
      h.existing]

/-- Adding an edge never fails. It does nothing for nodes that do not exist or if there is an edge
    already, and otherwise it adds the edge to the graph. -/
theorem exists_addEdge (h : t.Represents g) (source target : Option InstId) :
    ∃ t', t.addEdge source target = some (t', (g.nodes? source target).bind fun p =>
        if p ∈ g.ends then none else some g.edgeCount) ∧
      t'.Represents ((g.nodes? source target).elim g g.extend) := by
  have hnode : ∀ id, t.node? id = g.node? id := by
    intro id
    cases id with
    | none => rfl
    | some id => exact h.indexOf? id
  unfold addEdge FlowGraph.nodes?
  rw [hnode, hnode]
  cases hsource : g.node? source with
  | none => exact ⟨t, rfl, h⟩
  | some a =>
    cases htarget : g.node? target with
    | none => exact ⟨t, rfl, h⟩
    | some b =>
      simp only [h.existing, Option.bind_some, Option.map_some, Option.elim_some, FlowGraph.extend]
      split_ifs with hp
      · exact ⟨t, rfl, h⟩
      · obtain ⟨t', ht', hrep⟩ := h.exists_insert (p := (a, b)) (FlowGraph.node?_lt hsource)
          (FlowGraph.node?_lt htarget)
        refine ⟨t', ?_, hrep⟩
        rw [ht', h.edges]
        rfl

theorem exists_addFlow (h : t.Represents g) (flow : InstId × InstId) :
    ∃ t', t.addFlow flow = some t' ∧ t'.Represents
      (((FlowGraph.nodesOf g.insts flow).map g.direction.orient).elim g g.extend) := by
  unfold addFlow
  rw [h.direction, FlowGraph.nodesOf_eq_nodes?]
  cases g.direction with
  | forward =>
    obtain ⟨t', ht', hrep⟩ := h.exists_addEdge (some flow.1) (some flow.2)
    have horient : Direction.forward.orient = id := rfl
    rw [horient, Option.map_id]
    exact ⟨t', by simp only [ht', Option.map_some], hrep⟩
  | backward =>
    obtain ⟨t', ht', hrep⟩ := h.exists_addEdge (some flow.2) (some flow.1)
    have horient : Direction.backward.orient = Prod.swap := rfl
    rw [horient, FlowGraph.map_swap_nodes?]
    exact ⟨t', by simp only [ht', Option.map_some], hrep⟩

/-- Transfers of control, one after the other, add their edges. -/
theorem exists_foldlM (h : t.Represents g) (flows : List (InstId × InstId)) :
    ∃ t', flows.foldlM addFlow t = some t' ∧ t'.Represents
      ((flows.filterMap fun flow => (FlowGraph.nodesOf g.insts flow).map g.direction.orient).foldl
        FlowGraph.extend g) := by
  induction flows generalizing t g with
  | nil => exact ⟨t, rfl, h⟩
  | cons flow flows ih =>
    obtain ⟨next, hnext, hrep⟩ := h.exists_addFlow flow
    obtain ⟨t', ht', hrep'⟩ := ih hrep
    refine ⟨t', by rw [List.foldlM_cons, hnext]; exact ht', ?_⟩
    rw [List.filterMap_cons]
    cases hnodes : (FlowGraph.nodesOf g.insts flow).map g.direction.orient with
    | none =>
      rw [hnodes] at hrep'
      exact hrep'
    | some p =>
      rw [hnodes] at hrep'
      simp only [Option.elim_some, FlowGraph.insts_extend, FlowGraph.direction_extend] at hrep'
      exact hrep'

end Represents

/-- The entry edge is set once all edges are there. -/
theorem Represents.withEntry (h : t.Represents g) (entryEdge : Option Nat) :
    { t with entryEdge := entryEdge }.Represents { g with entryEdge := entryEdge } where
  direction := h.direction
  instAt? := h.instAt?
  nodeCount := h.nodeCount
  indexOf? := h.indexOf?
  edges := h.edges
  incoming := h.incoming
  outgoing := h.outgoing
  existing := h.existing
  entryEdge := rfl

/-- The construction succeeds, whatever the function looks like, and its tables answer as the graph
    of the function does. -/
theorem exists_build (f : Function) (direction : Direction) :
    ∃ t, build f direction = some t ∧ t.Represents (FlowGraph.build f direction) := by
  obtain ⟨t, ht, hrep⟩ := (represents_assign direction
    (f.instructions.map Instruction.id)).exists_foldlM (FlowGraph.flows f)
  rw [FlowGraph.foldl_extend_ofEnds] at hrep
  let g := FlowGraph.ofEnds direction (FlowGraph.numbering f) (FlowGraph.flowEnds f direction)
  have hgraph : t.Represents g := hrep
  have hends : g.ends = FlowGraph.flowEnds f direction := FlowGraph.ends_ofEnds
  have hcount : g.edgeCount = (FlowGraph.flowEnds f direction).length := by
    simp [g, FlowGraph.edgeCount, FlowGraph.ofEnds]
  unfold build
  rw [ht, FlowGraph.build_eq]
  unfold FlowGraph.entryNode?
  cases FlowGraph.entryInst? f direction with
  | none => exact ⟨t, rfl, hgraph⟩
  | some id =>
    obtain ⟨t', ht', hrep'⟩ := hgraph.exists_addEdge none (some id)
    rw [Option.bind_some]
    cases hindex : FlowGraph.indexIn (FlowGraph.numbering f) id with
    | none =>
      have hnodes : g.nodes? none (some id) = none := congrArg (Option.map _) hindex
      rw [hnodes] at ht' hrep'
      exact ⟨_, by simp only [bind, Option.bind, ht']; rfl, hrep'.withEntry none⟩
    | some n =>
      have hnodes : g.nodes? none (some id) = some (FlowGraph.virtualEntry, n) :=
        congrArg (Option.map _) hindex
      -- No edge between instructions starts at the virtual node.
      have hnew : (FlowGraph.virtualEntry, n) ∉ g.ends := by
        intro hmem
        rw [hends] at hmem
        have hpos := (FlowGraph.mem_nodes.1 (FlowGraph.flowEnds_mem_nodes hmem).1).1
        exact absurd hpos (Nat.not_succ_le_zero 0)
      rw [hnodes, Option.bind_some, if_neg hnew, hcount] at ht'
      rw [hnodes, Option.elim_some, FlowGraph.extend, if_neg hnew,
        FlowGraph.withEdge_ofEnds] at hrep'
      exact ⟨_, by simp only [bind, Option.bind, ht']; rfl, hrep'.withEntry _⟩

end GraphTables

/-! ## Lookups -/

namespace FlowGraph

variable {g : FlowGraph} {e : Edge}

/-- The edges of a graph and its lookups fit together. -/
structure Valid (g : FlowGraph) : Prop where
  /-- An edge carries its place. -/
  id_eq : ∀ {i : Nat} {e : Edge}, g.edges[i]? = some e → e.id = i
  /-- No two edges share their ends. -/
  nodup_ends : g.ends.Nodup
  /-- The ends of an edge are nodes. -/
  ends_lt : ∀ e ∈ g.edges, e.source < g.nodeCount ∧ e.target < g.nodeCount
  /-- The edges out of a node are those that have it as their source, by number. -/
  outgoing : ∀ n, (∀ e, e ∈ g.outgoing n ↔ e ∈ g.edges ∧ e.source = n) ∧
    (g.outgoing n).Pairwise fun d e => d.id < e.id
  /-- The edges into a node are those that have it as their target, by number. -/
  incoming : ∀ n, (∀ e, e ∈ g.incoming n ↔ e ∈ g.edges ∧ e.target = n) ∧
    (g.incoming n).Pairwise fun d e => d.id < e.id
  /-- No edge enters the virtual node. -/
  target_ne : ∀ e ∈ g.edges, e.target ≠ virtualEntry
  /-- Without an entry edge, no edge leaves the virtual node. -/
  no_entry : g.entryEdge = none → g.outgoing virtualEntry = []
  /-- The entry edge is the only one that leaves the virtual node. -/
  entry : ∀ {id : Nat}, g.entryEdge = some id →
    ∃ e, g.edges[id]? = some e ∧ g.outgoing virtualEntry = [e]
  /-- The edge between two nodes is the one with these ends. -/
  edgeBetween?_iff : ∀ {source target e}, g.edgeBetween? source target = some e ↔
    e ∈ g.edges ∧ e.source = source ∧ e.target = target

namespace WellFormed

theorem outgoing_virtualEntry (hg : g.WellFormed) {id : Nat} (h : g.entryEdge = some id) :
    ∃ e, g.edges[id]? = some e ∧ g.outgoing virtualEntry = [e] := by
  obtain ⟨e, he⟩ : ∃ e, g.edges[id]? = some e :=
    ⟨_, Array.getElem?_eq_getElem (hg.entry_lt h)⟩
  refine ⟨e, he, ?_⟩
  have hmem := Array.mem_of_getElem? he
  have hid := hg.id_eq he
  rw [← List.perm_singleton]
  refine (List.perm_ext_iff_of_nodup (hg.nodup_outgoing _) (List.nodup_singleton e)).2 fun d => ?_
  rw [mem_outgoing, List.mem_singleton]
  constructor
  · rintro ⟨hd, hsource⟩
    have hentry := (hg.entry_iff hd).2 hsource
    rw [h, Option.some.injEq] at hentry
    exact hg.eq_of_id_eq hd hmem (by rw [hid, hentry])
  · rintro rfl
    exact ⟨hmem, (hg.entry_iff hmem).1 (by rw [h, hid])⟩

end WellFormed

theorem edgeBetween?_eq_some_iff (hnodup : g.ends.Nodup) {source target : Nat} :
    g.edgeBetween? source target = some e ↔
      e ∈ g.edges ∧ e.source = source ∧ e.target = target := by
  have hends : ∀ {d e : Edge}, d ∈ g.edges → e ∈ g.edges → d.source = e.source →
      d.target = e.target → d = e := by
    intro d e hd he hsource htarget
    refine List.inj_on_of_nodup_map hnodup (Array.mem_toList_iff.2 hd)
      (Array.mem_toList_iff.2 he) ?_
    rw [hsource, htarget]
  constructor
  · intro h
    obtain ⟨hmem, hsource⟩ := mem_outgoing.1 (List.mem_of_find?_eq_some h)
    have htarget := List.find?_some h
    exact ⟨hmem, hsource, of_decide_eq_true htarget⟩
  · rintro ⟨hmem, hsource, htarget⟩
    cases hfind : g.edgeBetween? source target with
    | none =>
      have hnone := List.find?_eq_none.1 hfind e (mem_outgoing.2 ⟨hmem, hsource⟩)
      exact absurd (decide_eq_true htarget) hnone
    | some d =>
      obtain ⟨hd, hsource'⟩ := mem_outgoing.1 (List.mem_of_find?_eq_some hfind)
      have htarget' := List.find?_some hfind
      rw [decide_eq_true_eq] at htarget'
      rw [hends hd hmem (hsource'.trans hsource.symm) (htarget'.trans htarget.symm)]

/-- In the graph of a function edges and lookups fit together, also when the function is not well
    formed. -/
theorem valid_build (f : Function) (direction : Direction) : (build f direction).Valid := by
  have hg := wellFormed_build f direction
  have hnode : ∀ {n}, n ∈ (build f direction).nodes → n < (build f direction).nodeCount :=
    fun hn => Nat.lt_succ_of_le (mem_nodes.1 hn).2
  refine ⟨hg.id_eq, nodup_ends_build f direction, ?_, ?_, ?_, ?_, ?_, hg.outgoing_virtualEntry,
    edgeBetween?_eq_some_iff (nodup_ends_build f direction)⟩
  · intro e he
    refine ⟨?_, hnode (hg.target_mem he)⟩
    rcases hg.source_mem he with hsource | hsource
    · rw [hsource]
      exact Nat.succ_pos _
    · exact hnode hsource
  · exact fun n => ⟨fun e => mem_outgoing, hg.pairwise_id.filter _⟩
  · exact fun n => ⟨fun e => mem_incoming, hg.pairwise_id.filter _⟩
  · intro e he htarget
    have hpos := (mem_nodes.1 (hg.target_mem he)).1
    rw [htarget] at hpos
    exact absurd hpos (Nat.not_succ_le_zero 0)
  · intro hnone
    rw [List.eq_nil_iff_forall_not_mem]
    intro e he
    obtain ⟨hmem, hsource⟩ := mem_outgoing.1 he
    have hentry := (hg.entry_iff hmem).2 hsource
    rw [hnone] at hentry
    cases hentry

/-- A store of the given size has a place for every edge that a lookup in the graph finds. -/
structure Fits (g : FlowGraph) (size : Nat) : Prop where
  entry : ∀ id ∈ g.entryEdge, id < size
  incoming : ∀ n, ∀ e ∈ g.incoming n, e.id < size
  outgoing : ∀ n, ∀ e ∈ g.outgoing n, e.id < size
  between : ∀ source target, ∀ e ∈ g.edgeBetween? source target, e.id < size

theorem WellFormed.fits (hg : g.WellFormed) {size : Nat} (hsize : size = g.edgeCount) :
    g.Fits size := by
  subst hsize
  refine ⟨fun id => hg.entry_lt, fun n e he => ?_, fun n e he => ?_, fun source target e he => ?_⟩
  · exact hg.id_lt (mem_incoming.1 he).1
  · exact hg.id_lt (mem_outgoing.1 he).1
  · exact hg.id_lt (mem_outgoing.1 (List.mem_of_find?_eq_some he)).1

end FlowGraph

/-! ## Stores -/

section

variable {α : Type} [Domain α] [DecidableEq α] {a : Analysis α} {ctx : FlowContext}
  {f : Function} {config : SolverConfig} {st : SolverState α} {s : Solution α}

theorem SolverState.size_history_offerAll {size : Nat} {order : Order} {offers : List (Edge × α)}
    (h : ∀ history ∈ st.history, history.size = size) :
    ∀ history ∈ (st.offerAll order offers).history, history.size = size := by
  refine offerAll_induction (P := fun st => ∀ history ∈ st.history, history.size = size) h
    fun st o _ h => ?_
  rw [offer_eq]
  split_ifs
  · exact h
  · intro history hhistory
    obtain ⟨old, hold, rfl⟩ := Option.map_eq_some_iff.1 hhistory
    rw [Array.size_modify]
    exact h old hold

/-- What is recorded has a place for every edge. -/
theorem Solver.Reachable.size_history (h : Reachable a ctx config st) :
    ∀ history ∈ st.history, history.size = ctx.graph.edgeCount := by
  induction h with
  | start =>
    intro history hhistory
    rw [SolverState.history_start] at hhistory
    split_ifs at hhistory
    · rw [← Option.some.inj hhistory, Array.size_map, size_start]
    · cases hhistory
  | step _ hstep ih =>
    obtain ⟨node, rest, produced, -, -, rfl⟩ := hstep.inv
    exact SolverState.size_history_offerAll ih

/-- Whatever is read from an answer is stored in it. -/
structure Solution.InRange (s : Solution α) : Prop where
  /-- Every edge that a lookup finds has a place. -/
  values : s.graph.Fits s.values.size
  /-- The same holds of what was recorded. -/
  history : ∀ history ∈ s.history, s.graph.Fits history.size
  /-- The value of an edge is stored in its place. -/
  value : ∀ e ∈ s.graph.edges, s.values[e.id]? = some (s.value e)
  /-- The facts are stored values. -/
  facts : ∀ p ∈ s.facts, s.values[p.1.id]? = some p.2
  /-- The value between two nodes is that of the edge between them. -/
  edgeValue? : ∀ {source target v}, s.edgeValue? source target = some v →
    ∃ e, s.graph.edgeBetween? source target = some e ∧ s.values[e.id]? = some v

theorem Solver.Reachable.fits (h : Reachable a ctx config st) (hg : ctx.graph.WellFormed) :
    ctx.graph.Fits st.values.size ∧ ∀ history ∈ st.history, ctx.graph.Fits history.size :=
  ⟨hg.fits h.size_eq, fun history hhistory => hg.fits (h.size_history history hhistory)⟩

theorem solve_inRange (h : solve a f config = .ok s) : s.InRange := by
  have hfits : s.graph.Fits s.values.size ∧ ∀ history ∈ s.history, s.graph.Fits history.size := by
    obtain ⟨st, hreach, -, rfl⟩ := solve_eq_ok h
    exact hreach.fits (a.wellFormed_context f)
  have hvalue : ∀ e ∈ s.graph.edges, s.values[e.id]? = some (s.value e) :=
    fun e => solve_getElem?_id h
  refine ⟨hfits.1, hfits.2, hvalue, fun p hp => ?_, fun {source target v} hv => ?_⟩
  · obtain ⟨n, -, hn⟩ := List.mem_flatMap.1 hp
    obtain ⟨e, he, rfl⟩ := List.mem_map.1 hn
    exact hvalue e (FlowGraph.mem_outgoing.1 he).1
  · obtain ⟨e, he, rfl⟩ := Option.map_eq_some_iff.1 hv
    exact ⟨e, he, hvalue e (FlowGraph.mem_outgoing.1 (List.mem_of_find?_eq_some he)).1⟩

end

/-- For every function, well formed or not, and both directions: edges and lookups of its graph fit
    together, and the graph can be built edge by edge without an access that is out of range. In
    every state of every run over such a graph, and in every answer, whatever a lookup in the graph
    finds has a place in the stores. -/
theorem graph_representation :
    (∀ (f : Function) (direction : Direction), (FlowGraph.build f direction).Valid ∧
      ∃ t, GraphTables.build f direction = some t ∧
        t.Represents (FlowGraph.build f direction)) ∧
    ∀ {α : Type} [Domain α] [DecidableEq α] (a : Analysis α) (f : Function)
      (config : SolverConfig),
      (∀ {st : SolverState α}, Solver.Reachable a (a.context f) config st →
        (a.context f).graph.Fits st.values.size ∧
          ∀ history ∈ st.history, (a.context f).graph.Fits history.size) ∧
      ∀ {s : Solution α}, solve a f config = .ok s → s.InRange := by
  constructor
  · intro f direction
    exact ⟨FlowGraph.valid_build f direction, GraphTables.exists_build f direction⟩
  · intro α _ _ a f config
    exact ⟨fun hreach => hreach.fits (a.wellFormed_context f), solve_inRange⟩

/-- A function that is not well formed: instructions carry the numbers of others, blocks list an
    instruction that does not exist, and links and numbers of blocks are out of date. -/
def stray : Function where
  name := "stray"
  params := []
  blocks := .ofList [
    (.ofNat 7, ⟨.ofNat 0, "a", [.ofSlot 0, .ofSlot 1, .ofSlot 9], [.ofNat 99],
      [.ofNat 8, .ofNat 8]⟩),
    (.ofNat 8, ⟨.ofNat 8, "b", [.ofSlot 1, .ofSlot 2, .ofSlot 0], [.ofNat 7, .ofNat 7],
      [.ofNat 7]⟩)]
  insts := #[
    ⟨.ofSlot 1, none, .alloca, [], [], [], .ofNat 3⟩,
    ⟨.ofSlot 1, none, .load, [.inst (.ofSlot 0)], [], [], .ofNat 0⟩,
    ⟨.ofSlot 0, none, .ret, [], [], [], .ofNat 8⟩]

/-- Of the transfers of control in `stray` only two join instructions that have an index. -/
theorem graph_representation_stray :
    (FlowGraph.build stray .forward).Valid ∧ (FlowGraph.build stray .backward).Valid ∧
      (FlowGraph.build stray .forward).ends = [(4, 5), (4, 4), (0, 4)] ∧
      (GraphTables.build stray .forward).map GraphTables.existing =
        some [(0, 4), (4, 4), (4, 5)] ∧
      ∃ s, solve Reaching.analysis stray { recordHistory := true } = .ok s ∧ s.InRange := by
  obtain ⟨s, hs⟩ : ∃ s, solve Reaching.analysis stray { recordHistory := true } = .ok s :=
    exists_ok_of_toBool (by decide +kernel)
  exact ⟨(graph_representation.1 stray .forward).1, (graph_representation.1 stray .backward).1,
    by decide +kernel, by decide +kernel, s, hs, (graph_representation.2 _ _ _).2 hs⟩

end FlowFacts
