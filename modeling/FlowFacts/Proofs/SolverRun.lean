import FlowFacts.Analysis.Solver
import FlowFacts.Proofs.Agreement
import FlowFacts.Proofs.DomainOrder
import FlowFacts.Proofs.GraphShape
import Mathlib.Tactic.SplitIfs

/-!
# Runs of the solver

A run is a sequence of visits from the starting state. A visit first computes what the analysis
produces at a node (`Solver.produce`) and then joins it into the outgoing edges
(`SolverState.offerAll`); `Solver.Step` is one visit, and `Solver.Reachable` holds of the states
that some visits lead to.

Main results:

* `valueAt_offerAll_le_iff`: after an offer an edge holds the join of its value and what it was
  offered.
* `pending_of_valueAt_ne`: the target of each edge that changed is listed.
* `Step.value_le`: what a visit leaves on an edge is bounded by what was there and what the
  analysis produces for it.
* `solve_eq_ok`, `solve_of_reachable`: the solver answers with a reachable state in which no node is
  listed, and with every such state that its limit on visits allows.
-/

namespace FlowFacts

/-! ## Lists of nodes -/

namespace Order

variable {order : Order} {nodes : List Nat} {n m : Nat}

@[simp] theorem mem_start : n ∈ order.start nodes ↔ n ∈ nodes := by
  cases order <;> simp [start]

@[simp] theorem length_start : (order.start nodes).length = nodes.length := by
  cases order <;> simp [start]

@[simp] theorem mem_push : n ∈ order.push nodes m ↔ n ∈ nodes ∨ n = m := by
  cases order <;> simp [push, or_comm]

@[simp] theorem length_push : (order.push nodes m).length = nodes.length + 1 := by
  cases order <;> simp [push]

end Order

/-! ## Offers -/

namespace SolverState

variable {α : Type} [Domain α] {st : SolverState α} {order : Order} {e : Edge}
  {offers : List (Edge × α)}

/-- The value of the edge with the given number. -/
def valueAt (st : SolverState α) (id : Nat) : α := st.values.getD id Domain.bottom

/-- What is known in front of a node does not depend on the listed nodes. -/
theorem input_pending (st : SolverState α) (rest : List Nat) (g : FlowGraph) (n : Nat) :
    { st with pending := rest }.input g n = st.input g n := rfl

theorem value_eq_valueAt (st : SolverState α) (e : Edge) : st.value e = st.valueAt e.id := rfl

/-- Before the first visit the entry edge holds the initial value and every other edge the least
    one. -/
theorem getElem?_start (a : Analysis α) (g : FlowGraph) (config : SolverConfig)
    (i : Nat) :
    (start a g config).values[i]? =
      if i < g.edgeCount then
        some (if g.entryEdge = some i then a.initial else Domain.bottom)
      else none := by
  unfold start
  cases g.entryEdge with
  | none => simp [Array.getElem?_replicate]
  | some id =>
    by_cases hid : id = i
    · simp [Array.getElem?_setIfInBounds, hid]
    · simp [Array.getElem?_replicate, hid]

theorem history_start (a : Analysis α) (g : FlowGraph) (config : SolverConfig) :
    (start a g config).history =
      if config.recordHistory then some ((start a g config).values.map fun v => [v])
      else none := rfl

theorem valueAt_store (h : e.id < st.values.size) (v : α) (i : Nat) :
    (st.store order e v).valueAt i = if i = e.id then v else st.valueAt i := by
  unfold valueAt store
  by_cases hi : i = e.id
  · subst hi
    simp [h]
  · simp [hi, Ne.symm hi]

variable [DecidableEq α]

theorem offer_eq (st : SolverState α) (order : Order) (e : Edge) (v : α) :
    st.offer order e v =
      if Domain.join (st.value e) v = st.value e then st
      else st.store order e (Domain.join (st.value e) v) := rfl

theorem valueAt_offer (h : e.id < st.values.size) (v : α) (i : Nat) :
    (st.offer order e v).valueAt i =
      if i = e.id then Domain.join (st.valueAt i) v else st.valueAt i := by
  rw [offer_eq]
  split_ifs with hjoin hi hi
  · subst hi
    exact hjoin.symm
  · rfl
  · rw [valueAt_store h, if_pos hi, hi, value_eq_valueAt]
  · rw [valueAt_store h, if_neg hi]

theorem offerAll_cons (st : SolverState α) (order : Order) (o : Edge × α)
    (os : List (Edge × α)) :
    st.offerAll order (o :: os) = (st.offer order o.1 o.2).offerAll order os := rfl

/-- What every offer keeps is kept by a list of offers. -/
theorem offerAll_induction {P : SolverState α → Prop} (h : P st)
    (hoffer : ∀ st o, o ∈ offers → P st → P (st.offer order o.1 o.2)) :
    P (st.offerAll order offers) := by
  induction offers generalizing st with
  | nil => exact h
  | cons o os ih =>
    refine ih (hoffer st o List.mem_cons_self h) fun st' o' ho' => ?_
    exact hoffer st' o' (List.mem_cons_of_mem o ho')

theorem size_offer (st : SolverState α) (order : Order) (e : Edge) (v : α) :
    (st.offer order e v).values.size = st.values.size := by
  rw [offer_eq]
  split_ifs
  · rfl
  · exact Array.size_setIfInBounds

theorem size_offerAll : (st.offerAll order offers).values.size = st.values.size :=
  offerAll_induction (P := fun st' => st'.values.size = st.values.size) rfl
    fun st' o _ h => by rw [size_offer, h]

/-- Offers do not count as visits, and each one that is stored lists one node. -/
theorem balance_offerAll (st : SolverState α) (order : Order) (offers : List (Edge × α)) :
    (st.offerAll order offers).stats.visits = st.stats.visits ∧
      (st.offerAll order offers).pending.length + st.stats.updates =
        st.pending.length + (st.offerAll order offers).stats.updates := by
  refine offerAll_induction
    (P := fun st' => st'.stats.visits = st.stats.visits ∧
      st'.pending.length + st.stats.updates = st.pending.length + st'.stats.updates)
    ⟨rfl, rfl⟩ fun st' o _ h => ?_
  rw [offer_eq]
  split_ifs
  · exact h
  · refine ⟨h.1, ?_⟩
    simp only [store, Order.length_push]
    omega

theorem pending_subset_offer {n : Nat} (h : n ∈ st.pending) (e : Edge) (v : α) :
    n ∈ (st.offer order e v).pending := by
  rw [offer_eq]
  split_ifs
  · exact h
  · exact Order.mem_push.2 (.inl h)

theorem pending_subset_offerAll {n : Nat} (h : n ∈ st.pending) :
    n ∈ (st.offerAll order offers).pending :=
  offerAll_induction (P := fun st' => n ∈ st'.pending) h
    fun _ o _ h => pending_subset_offer h o.1 o.2

/-- Only targets of the offered edges are listed. -/
theorem mem_pending_offerAll {n : Nat} (h : n ∈ (st.offerAll order offers).pending) :
    n ∈ st.pending ∨ ∃ o ∈ offers, o.1.target = n := by
  revert h
  refine offerAll_induction
    (P := fun st' => n ∈ st'.pending → n ∈ st.pending ∨ ∃ o ∈ offers, o.1.target = n)
    .inl fun st' o ho ih h => ?_
  rw [offer_eq] at h
  split_ifs at h
  · exact ih h
  · rcases Order.mem_push.1 h with h | rfl
    · exact ih h
    · exact .inr ⟨o, ho, rfl⟩

/-- An edge that changes has its target listed. -/
theorem pending_of_valueAt_ne {i : Nat} (hb : ∀ o ∈ offers, o.1.id < st.values.size)
    (h : (st.offerAll order offers).valueAt i ≠ st.valueAt i) :
    ∃ o ∈ offers, o.1.id = i ∧ o.1.target ∈ (st.offerAll order offers).pending := by
  induction offers generalizing st with
  | nil => exact absurd rfl h
  | cons o os ih =>
    rw [offerAll_cons] at h ⊢
    have ho := hb o List.mem_cons_self
    have hos : ∀ p ∈ os, p.1.id < (st.offer order o.1 o.2).values.size := by
      intro p hp
      rw [size_offer]
      exact hb p (List.mem_cons_of_mem o hp)
    by_cases hfirst : (st.offer order o.1 o.2).valueAt i = st.valueAt i
    · obtain ⟨p, hp, hpi⟩ := ih hos (by rwa [hfirst])
      exact ⟨p, List.mem_cons_of_mem o hp, hpi⟩
    · have hid : o.1.id = i := by
        rw [valueAt_offer ho] at hfirst
        by_contra hne
        exact hfirst (if_neg (Ne.symm hne))
      have hlisted : o.1.target ∈ (st.offer order o.1 o.2).pending := by
        rw [offer_eq] at hfirst ⊢
        split_ifs at hfirst ⊢
        · exact absurd rfl hfirst
        · exact Order.mem_push.2 (.inr rfl)
      exact ⟨o, List.mem_cons_self, hid, pending_subset_offerAll hlisted⟩

/-- After a list of offers an edge holds the join of its value and what it was offered. -/
theorem valueAt_offerAll_le_iff [LawfulDomain α] {i : Nat} {t : α}
    (hb : ∀ o ∈ offers, o.1.id < st.values.size) :
    Domain.LE ((st.offerAll order offers).valueAt i) t ↔
      Domain.LE (st.valueAt i) t ∧ ∀ o ∈ offers, o.1.id = i → Domain.LE o.2 t := by
  induction offers generalizing st with
  | nil => simp [offerAll]
  | cons o os ih =>
    have hos : ∀ p ∈ os, p.1.id < (st.offer order o.1 o.2).values.size := by
      intro p hp
      rw [size_offer]
      exact hb p (List.mem_cons_of_mem o hp)
    have hstep : Domain.LE ((st.offer order o.1 o.2).valueAt i) t ↔
        Domain.LE (st.valueAt i) t ∧ (o.1.id = i → Domain.LE o.2 t) := by
      rw [valueAt_offer (hb o List.mem_cons_self)]
      split_ifs with hi
      · simp [Domain.join_le_iff, hi]
      · simp [Ne.symm hi]
    rw [offerAll_cons, ih hos, hstep, List.forall_mem_cons, and_assoc]

/-- Counts a visit that leaves `rest` on the list, and joins what it produced into the edges. -/
def deliver (order : Order) (rest : List Nat) (st : SolverState α) (offers : List (Edge × α)) :
    SolverState α :=
  { st with
    pending := rest
    stats := { st.stats with visits := st.stats.visits + 1 } }.offerAll order offers

variable {rest : List Nat} (hb : ∀ o ∈ offers, o.1.id < st.values.size)

include hb

theorem pending_of_deliver_ne (h : (st.deliver order rest offers).value e ≠ st.value e) :
    ∃ o ∈ offers, o.1.id = e.id ∧ o.1.target ∈ (st.deliver order rest offers).pending :=
  pending_of_valueAt_ne hb h

theorem deliver_le_iff [LawfulDomain α] {t : α} :
    Domain.LE ((st.deliver order rest offers).value e) t ↔
      Domain.LE (st.value e) t ∧ ∀ o ∈ offers, o.1.id = e.id → Domain.LE o.2 t :=
  valueAt_offerAll_le_iff hb

end SolverState

/-! ## Visits -/

/-- An element of a zipped list stands beside the element at its own place. -/
theorem mem_zip_iff {β γ : Type} [DecidableEq β] {xs : List β} {ys : List γ} (hx : xs.Nodup)
    {x : β} {y : γ} : (x, y) ∈ xs.zip ys ↔ x ∈ xs ∧ ys[xs.idxOf x]? = some y := by
  rw [List.mem_iff_getElem?]
  simp only [List.getElem?_zip_eq_some]
  constructor
  · rintro ⟨i, hxi, hyi⟩
    obtain ⟨hlt, rfl⟩ := List.getElem?_eq_some_iff.1 hxi
    rw [hx.idxOf_getElem]
    exact ⟨List.getElem_mem hlt, hyi⟩
  · rintro ⟨hmem, hy⟩
    exact ⟨xs.idxOf x, List.getElem?_idxOf hmem, hy⟩

variable {α : Type} {a : Analysis α} {ctx : FlowContext}

/-- What an analysis produces for one outgoing edge of a node from what is known in front of the
    node; nothing if it fails there. -/
def Analysis.component (a : Analysis α) (ctx : FlowContext) (node : Nat) (x : α) (e : Edge) :
    Option α :=
  match ctx.instruction? node with
  | none => none
  | some inst =>
    match a.transfer ctx inst node x (ctx.graph.outgoing node) with
    | .error _ => none
    | .ok produced => produced[(ctx.graph.outgoing node).idxOf e]?

theorem Analysis.component_eq_some {n : Nat} {x u : α} {e : Edge}
    (h : a.component ctx n x e = some u) :
    ∃ inst xs, ctx.instruction? n = some inst ∧
      a.transfer ctx inst n x (ctx.graph.outgoing n) = .ok xs ∧
      xs[(ctx.graph.outgoing n).idxOf e]? = some u := by
  unfold Analysis.component at h
  cases hinst : ctx.instruction? n with
  | none => simp [hinst] at h
  | some inst =>
    simp only [hinst] at h
    cases htransfer : a.transfer ctx inst n x (ctx.graph.outgoing n) with
    | error fault => simp [htransfer] at h
    | ok xs =>
      simp only [htransfer] at h
      exact ⟨inst, xs, rfl, htransfer, h⟩

/-- From larger inputs the analysis produces larger values, edge by edge. -/
def Analysis.Monotone [Domain α] (a : Analysis α) : Prop :=
  ∀ (ctx : FlowContext) (inst : Instruction) (node : Nat) (outs : List Edge) {x y : α}
    {xs ys : List α}, Domain.LE x y → a.transfer ctx inst node x outs = .ok xs →
    a.transfer ctx inst node y outs = .ok ys →
    ∀ {i : Nat} {u v : α}, xs[i]? = some u → ys[i]? = some v → Domain.LE u v

theorem Analysis.Monotone.component_le [Domain α] (hmono : a.Monotone) {n : Nat} {e : Edge}
    {x y u v : α} (hxy : Domain.LE x y) (hu : a.component ctx n x e = some u)
    (hv : a.component ctx n y e = some v) : Domain.LE u v := by
  obtain ⟨inst, xs, hinst, htransfer, hxs⟩ := Analysis.component_eq_some hu
  obtain ⟨inst', ys, hinst', htransfer', hys⟩ := Analysis.component_eq_some hv
  rw [hinst] at hinst'
  cases hinst'
  exact hmono ctx inst n _ hxy htransfer htransfer' hxs hys

namespace Solver

/-- What a visit produces for the outgoing edges of a node from what is known in front of it. -/
def produce (a : Analysis α) (ctx : FlowContext) (node : Nat) (x : α) :
    Except FlowFault (List α) :=
  match ctx.instruction? node with
  | none => .error (.noInstruction node)
  | some inst => do
    let produced ← a.transfer ctx inst node x (ctx.graph.outgoing node)
    if produced.length = (ctx.graph.outgoing node).length then return produced
    else .error (.arity a.name produced.length (ctx.graph.outgoing node).length node)

theorem produce_eq_ok_iff {node : Nat} {x : α} {ys : List α} :
    produce a ctx node x = .ok ys ↔
      ∃ inst, ctx.instruction? node = some inst ∧
        a.transfer ctx inst node x (ctx.graph.outgoing node) = .ok ys ∧
        ys.length = (ctx.graph.outgoing node).length := by
  unfold produce
  cases hinst : ctx.instruction? node with
  | none => simp
  | some inst =>
    cases htransfer : a.transfer ctx inst node x (ctx.graph.outgoing node) with
    | error fault => simp [htransfer, bind, Except.bind]
    | ok produced =>
      simp only [bind, Except.bind, Option.some.injEq, exists_eq_left', htransfer,
        Except.ok.injEq]
      split_ifs with hlen
      · simp only [pure, Except.pure, Except.ok.injEq]
        exact ⟨fun h => ⟨h, h ▸ hlen⟩, fun h => h.1⟩
      · simp only [false_iff, not_and]
        rintro rfl
        exact hlen

/-- What a visit offers to an edge is the component of the edge. -/
theorem component_eq_of_produce (hg : ctx.graph.WellFormed) {node : Nat} {x v : α} {ys : List α}
    {e : Edge} (h : produce a ctx node x = .ok ys)
    (he : (e, v) ∈ (ctx.graph.outgoing node).zip ys) :
    a.component ctx node x e = some v := by
  obtain ⟨inst, hinst, htransfer, -⟩ := produce_eq_ok_iff.1 h
  rw [Analysis.component, hinst]
  simp only [htransfer]
  exact ((mem_zip_iff (hg.nodup_outgoing node)).1 he).2

/-- A visit offers values to the outgoing edges of its node. -/
theorem mem_edges_of_offer {node : Nat} {produced : List α} {o : Edge × α}
    (h : o ∈ (ctx.graph.outgoing node).zip produced) :
    o.1 ∈ ctx.graph.edges ∧ o.1.source = node :=
  FlowGraph.mem_outgoing.1 (List.of_mem_zip h).1

/-- Every edge that is offered a value has a place in the store. -/
theorem offers_lt (hg : ctx.graph.WellFormed) {st : SolverState α}
    (hsize : st.values.size = ctx.graph.edgeCount) {node : Nat} {produced : List α} :
    ∀ o ∈ (ctx.graph.outgoing node).zip produced, o.1.id < st.values.size := by
  intro o ho
  rw [hsize]
  exact hg.id_lt (mem_edges_of_offer ho).1

variable [Domain α]

theorem size_start (g : FlowGraph) (config : SolverConfig) :
    (SolverState.start a g config).values.size = g.edgeCount := by
  unfold SolverState.start
  cases g.entryEdge <;> simp

variable [DecidableEq α] {order : Order} {st st' : SolverState α}

theorem visit_eq_ok_iff {node : Nat} {rest : List Nat} :
    visit a ctx order node { st with pending := rest } = .ok st' ↔
      ∃ produced, produce a ctx node (st.input ctx.graph node) = .ok produced ∧
        st' = st.deliver order rest ((ctx.graph.outgoing node).zip produced) := by
  unfold visit produce
  cases ctx.instruction? node with
  | none => simp
  | some inst =>
    simp only [bind, Except.bind, SolverState.input_pending]
    cases a.transfer ctx inst node (st.input ctx.graph node) (ctx.graph.outgoing node) with
    | error fault => simp
    | ok produced =>
      simp only
      split_ifs with hlen
      · simp [pure, Except.pure, SolverState.deliver, eq_comm]
      · simp

/-- One visit: the next node is taken off the list and visited. -/
def Step (a : Analysis α) (ctx : FlowContext) (order : Order) (st st' : SolverState α) : Prop :=
  ∃ node rest, st.pending = node :: rest ∧
    visit a ctx order node { st with pending := rest } = .ok st'

/-- What one visit does. -/
theorem Step.inv (h : Step a ctx order st st') :
    ∃ node rest produced, st.pending = node :: rest ∧
      produce a ctx node (st.input ctx.graph node) = .ok produced ∧
      st' = st.deliver order rest ((ctx.graph.outgoing node).zip produced) := by
  obtain ⟨node, rest, hpending, hvisit⟩ := h
  obtain ⟨produced, hproduce, hst⟩ := visit_eq_ok_iff.1 hvisit
  exact ⟨node, rest, produced, hpending, hproduce, hst⟩

namespace Step

theorem size_eq (h : Step a ctx order st st') : st'.values.size = st.values.size := by
  obtain ⟨node, rest, produced, -, -, rfl⟩ := h.inv
  exact SolverState.size_offerAll

/-- A visit takes one node off the list and puts one back for each edge that it changes. -/
theorem balance (h : Step a ctx order st st') :
    st'.stats.visits = st.stats.visits + 1 ∧
      st'.pending.length + 1 + st.stats.updates = st.pending.length + st'.stats.updates := by
  obtain ⟨node, rest, produced, hpending, -, rfl⟩ := h.inv
  obtain ⟨hvisits, hupdates⟩ := SolverState.balance_offerAll
    { st with pending := rest, stats := { st.stats with visits := st.stats.visits + 1 } } order
    ((ctx.graph.outgoing node).zip produced)
  refine ⟨hvisits, ?_⟩
  rw [hpending, List.length_cons]
  simp only [SolverState.deliver] at *
  omega

/-- A visit lists only targets of edges. -/
theorem pending_subset (h : Step a ctx order st st') {n : Nat} (hn : n ∈ st'.pending) :
    n ∈ st.pending ∨ ∃ e ∈ ctx.graph.edges, e.target = n := by
  obtain ⟨node, rest, produced, hpending, -, rfl⟩ := h.inv
  rcases SolverState.mem_pending_offerAll hn with hn | ⟨o, ho, htarget⟩
  · exact .inl (hpending ▸ List.mem_cons_of_mem node hn)
  · exact .inr ⟨o.1, (mem_edges_of_offer ho).1, htarget⟩

variable (hg : ctx.graph.WellFormed) (hsize : st.values.size = ctx.graph.edgeCount)

include hg hsize

/-- The target of each edge that a visit changes is listed afterwards. -/
theorem pending_of_value_ne (h : Step a ctx order st st') {e : Edge} (he : e ∈ ctx.graph.edges)
    (hne : st'.value e ≠ st.value e) : e.target ∈ st'.pending := by
  obtain ⟨node, rest, produced, -, -, rfl⟩ := h.inv
  obtain ⟨o, ho, hid, hlisted⟩ := SolverState.pending_of_deliver_ne (offers_lt hg hsize) hne
  rwa [hg.eq_of_id_eq (mem_edges_of_offer ho).1 he hid] at hlisted

variable [LawfulDomain α]

/-- What a visit leaves on an edge is bounded by what was there and what the analysis produces for
    the edge. -/
theorem value_le (h : Step a ctx order st st') {e : Edge} (he : e ∈ ctx.graph.edges) {t : α}
    (hold : Domain.LE (st.value e) t)
    (hnew : ∀ v, a.component ctx e.source (st.input ctx.graph e.source) e = some v →
      Domain.LE v t) : Domain.LE (st'.value e) t := by
  obtain ⟨node, rest, produced, -, hproduce, rfl⟩ := h.inv
  refine (SolverState.deliver_le_iff (offers_lt hg hsize)).2 ⟨hold, ?_⟩
  rintro ⟨d, v⟩ hd hid
  obtain ⟨hedge, hsource⟩ := mem_edges_of_offer hd
  obtain rfl := hg.eq_of_id_eq hedge he hid
  refine hnew v ?_
  rw [hsource]
  exact component_eq_of_produce hg hproduce hd

/-- Values only grow. -/
theorem le_value (h : Step a ctx order st st') (e : Edge) :
    Domain.LE (st.value e) (st'.value e) := by
  obtain ⟨node, rest, produced, -, -, rfl⟩ := h.inv
  exact ((SolverState.deliver_le_iff (offers_lt hg hsize)).1 (Domain.le_refl _)).1

theorem le_input (h : Step a ctx order st st') (n : Nat) :
    Domain.LE (st.input ctx.graph n) (st'.input ctx.graph n) :=
  Domain.joinAll_map_mono fun e _ => h.le_value hg hsize e

end Step

/-! ## Reachable states -/

/-- The states that some visits lead to from the starting state. -/
inductive Reachable (a : Analysis α) (ctx : FlowContext) (config : SolverConfig) :
    SolverState α → Prop
  | start : Reachable a ctx config (.start a ctx.graph config)
  | step {st st' : SolverState α} : Reachable a ctx config st →
      Step a ctx config.order st st' → Reachable a ctx config st'

variable {config : SolverConfig}

theorem Reachable.size_eq (h : Reachable a ctx config st) :
    st.values.size = ctx.graph.edgeCount := by
  induction h with
  | start => exact size_start ctx.graph config
  | step _ hstep ih => rw [hstep.size_eq, ih]

/-- Only nodes of the graph are listed. -/
theorem Reachable.pending_subset (hg : ctx.graph.WellFormed) (h : Reachable a ctx config st)
    {n : Nat} (hn : n ∈ st.pending) : n ∈ ctx.graph.nodes := by
  induction h with
  | start => exact Order.mem_start.1 hn
  | step _ hstep ih =>
    rcases hstep.pending_subset hn with hn | ⟨e, he, rfl⟩
    · exact ih hn
    · exact hg.target_mem he

/-- Every node was visited once or is still listed, and so is the target of every change. -/
theorem Reachable.balance (h : Reachable a ctx config st) :
    st.stats.visits + st.pending.length = ctx.graph.nodes.length + st.stats.updates := by
  induction h with
  | start =>
    show 0 + (config.order.start ctx.graph.nodes).length = ctx.graph.nodes.length + 0
    rw [Order.length_start, Nat.zero_add, Nat.add_zero]
  | step _ hstep ih =>
    obtain ⟨hvisits, hupdates⟩ := hstep.balance
    omega

/-- What the solver does with a state: it stops, it gives up, a visit fails, or it goes on from the
    state after a visit. -/
theorem iterate_cases (a : Analysis α) (ctx : FlowContext) (order : Order) (fuel : Nat)
    (st : SolverState α) :
    (st.pending = [] ∧ iterate a ctx order fuel st = .ok st) ∨
    (st.pending ≠ [] ∧ fuel = 0 ∧
      iterate a ctx order fuel st = .error (.unsettled ctx.function.name a.name)) ∨
    (∃ node rest fault, st.pending = node :: rest ∧
      visit a ctx order node { st with pending := rest } = .error fault ∧
      iterate a ctx order fuel st = .error (ctx.malformed fault)) ∨
    ∃ k st', fuel = k + 1 ∧ Step a ctx order st st' ∧
      iterate a ctx order fuel st = iterate a ctx order k st' := by
  rw [iterate.eq_def]
  dsimp only
  cases hpending : st.pending with
  | nil => exact .inl ⟨rfl, rfl⟩
  | cons node rest =>
    right
    cases fuel with
    | zero => exact .inl ⟨List.cons_ne_nil node rest, rfl, rfl⟩
    | succ k =>
      right
      cases hvisit : visit a ctx order node { st with pending := rest } with
      | error fault => exact .inl ⟨node, rest, fault, rfl, hvisit, by simp only [hvisit]⟩
      | ok st' =>
        exact .inr ⟨k, st', rfl, ⟨node, rest, hpending, hvisit⟩, by simp only [hvisit]⟩

theorem iterate_reachable {fuel : Nat} (hst : Reachable a ctx config st)
    (h : iterate a ctx config.order fuel st = .ok st') :
    Reachable a ctx config st' ∧ st'.pending = [] := by
  induction fuel using Nat.strongRecOn generalizing st with
  | _ fuel ih =>
    rcases iterate_cases a ctx config.order fuel st with
      ⟨hpending, heq⟩ | ⟨-, -, heq⟩ | ⟨node, rest, fault, -, -, heq⟩ | ⟨k, next, rfl, hstep, heq⟩
    all_goals rw [heq] at h
    · cases h
      exact ⟨hst, hpending⟩
    · cases h
    · cases h
    · exact ih k (Nat.lt_succ_self k) (hst.step hstep) h

/-- The solver gives up in a reachable state after as many visits as it may take, or it finds a
    visit that fails. -/
theorem iterate_eq_error {fuel : Nat} {err : FlowError} (hst : Reachable a ctx config st)
    (h : iterate a ctx config.order fuel st = .error err) :
    (∃ st', Reachable a ctx config st' ∧ st'.pending ≠ [] ∧
      st'.stats.visits = st.stats.visits + fuel) ∨
    ∃ st' node rest fault, Reachable a ctx config st' ∧ st'.pending = node :: rest ∧
      visit a ctx config.order node { st' with pending := rest } = .error fault ∧
      err = ctx.malformed fault := by
  induction fuel using Nat.strongRecOn generalizing st with
  | _ fuel ih =>
    rcases iterate_cases a ctx config.order fuel st with
      ⟨hpending, heq⟩ | ⟨hpending, rfl, -⟩ | ⟨node, rest, fault, hpending, hvisit, heq⟩ |
      ⟨k, next, rfl, hstep, heq⟩
    · rw [heq] at h
      cases h
    · exact .inl ⟨st, hst, hpending, rfl⟩
    · rw [heq] at h
      cases h
      exact .inr ⟨st, node, rest, fault, hst, hpending, hvisit, rfl⟩
    · rw [heq] at h
      have hvisits := hstep.balance.1
      refine (ih k (Nat.lt_succ_self k) (hst.step hstep) h).imp_left ?_
      rintro ⟨st', hst', hpending, hcount⟩
      exact ⟨st', hst', hpending, by omega⟩

/-- The solver passes through every reachable state that it may still visit from the start. -/
theorem Reachable.iterate_eq (h : Reachable a ctx config st) (fuel : Nat) :
    iterate a ctx config.order (st.stats.visits + fuel) (.start a ctx.graph config) =
      iterate a ctx config.order fuel st := by
  induction h generalizing fuel with
  | start =>
    show iterate a ctx config.order (0 + fuel) _ = _
    rw [Nat.zero_add]
  | @step st st' _ hstep ih =>
    rw [hstep.balance.1, Nat.add_assoc, Nat.add_comm 1, ih, iterate.eq_def]
    obtain ⟨node, rest, hpending, hvisit⟩ := hstep
    simp only [hpending, hvisit]

end Solver

/-! ## Answers -/

/-- A function with the graph that an analysis runs on. -/
abbrev Analysis.context (a : Analysis α) (f : Function) : FlowContext :=
  ⟨f, FlowGraph.build f a.direction⟩

theorem Analysis.wellFormed_context (a : Analysis α) (f : Function) :
    (a.context f).graph.WellFormed :=
  FlowGraph.wellFormed_build f a.direction

/-- What a state of a run on the graph `g` of `f` amounts to as a solution. -/
def SolverState.solution (st : SolverState α) (f : Function) (g : FlowGraph) : Solution α :=
  ⟨f.name, g, st.values, st.history, st.stats⟩

section Answers

variable {f : Function} {config : SolverConfig}

@[simp] theorem SolverState.graph_solution (st : SolverState α) (g : FlowGraph) :
    (st.solution f g).graph = g := rfl

variable [Domain α]

@[simp] theorem SolverState.value_solution (st : SolverState α) (g : FlowGraph) (e : Edge) :
    (st.solution f g).value e = st.value e := rfl

@[simp] theorem SolverState.input_solution (st : SolverState α) (g : FlowGraph) (n : Nat) :
    (st.solution f g).input n = st.input g n := rfl

variable [DecidableEq α]

theorem solve_eq_map (a : Analysis α) (f : Function) (config : SolverConfig) :
    solve a f config =
      (Solver.iterate a (a.context f) config.order (Solver.visitLimit a (a.context f).graph)
        (.start a (a.context f).graph config)).map (·.solution f (a.context f).graph) := by
  unfold solve
  dsimp only
  cases Solver.iterate a (a.context f) config.order _ _ <;> rfl

/-- The solver answers with a reachable state in which no node is listed. -/
theorem solve_eq_ok {s : Solution α} (h : solve a f config = .ok s) :
    ∃ st, Solver.Reachable a (a.context f) config st ∧ st.pending = [] ∧
      s = st.solution f (a.context f).graph := by
  rw [solve_eq_map] at h
  obtain ⟨st, hst, rfl⟩ := map_eq_ok h
  obtain ⟨hreach, hpending⟩ := Solver.iterate_reachable .start hst
  exact ⟨st, hreach, hpending, rfl⟩

/-- The solver finds every finished run that its limit on visits allows. -/
theorem solve_of_reachable {st : SolverState α} (h : Solver.Reachable a (a.context f) config st)
    (hpending : st.pending = []) (hle : st.stats.visits ≤ Solver.visitLimit a (a.context f).graph) :
    solve a f config = .ok (st.solution f (a.context f).graph) := by
  obtain ⟨fuel, hfuel⟩ := Nat.exists_eq_add_of_le hle
  rw [solve_eq_map, hfuel, h.iterate_eq, Solver.iterate.eq_def]
  simp only [hpending]
  rfl

/-- The solver fails where it may take no more visits, or where a visit fails. -/
theorem solve_eq_error {err : FlowError} (h : solve a f config = .error err) :
    (∃ st, Solver.Reachable a (a.context f) config st ∧ st.pending ≠ [] ∧
      st.stats.visits = Solver.visitLimit a (a.context f).graph) ∨
    ∃ st node rest fault, Solver.Reachable a (a.context f) config st ∧
      st.pending = node :: rest ∧
      Solver.visit a (a.context f) config.order node { st with pending := rest } = .error fault ∧
      err = .malformed f.name fault := by
  rw [solve_eq_map] at h
  refine (Solver.iterate_eq_error .start (map_eq_error h)).imp_left ?_
  rintro ⟨st, hreach, hpending, hvisits⟩
  exact ⟨st, hreach, hpending, hvisits.trans (Nat.zero_add _)⟩

end Answers

end FlowFacts
