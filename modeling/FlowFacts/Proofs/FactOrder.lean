import FlowFacts.Fact.IndexSet
import FlowFacts.Fact.PointsTo
import FlowFacts.Proofs.DomainOrder
import Mathlib.Tactic.SplitIfs
import Mathlib.Tactic.Tauto

/-!
# The order of index sets and points-to maps

Both domains are lawful. An index set lies below another one if it is a subset. What a points-to
map says is that a location is present, possibly without targets, or that it has a certain target;
a map lies below another one if the other one says as much.

Main results:

* `IndexSet.le_iff`, `PointsTo.le_iff`: the orders.
* `PointsTo.ext_says`: maps that say the same are equal.
* `PointsTo.says_aliasOf`, `PointsTo.says_absorb` and so on: what a map says after each operation.
* `facts_isSemilattice`: both domains are semilattices.
-/

namespace FlowFacts

/-! ## Index sets -/

namespace IndexSet

instance : LawfulDomain IndexSet where
  join_comm s t := SortedSet.ext_mem fun i => by simp [Domain.join, or_comm]
  join_assoc s t u := SortedSet.ext_mem fun i => by simp [Domain.join, or_assoc]
  join_self s := SortedSet.ext_mem fun i => by simp [Domain.join]
  bottom_join s := SortedSet.ext_mem fun i => by simp [Domain.join, Domain.bottom]

theorem le_iff {s t : IndexSet} : Domain.LE s t ↔ ∀ i ∈ s, i ∈ t := by
  constructor
  · intro h i hi
    rw [← show s.union t = t from h]
    exact SortedSet.mem_union.2 (.inl hi)
  · intro h
    refine SortedSet.ext_mem fun i => ?_
    simp only [Domain.join, SortedSet.mem_union, or_iff_right_iff_imp]
    exact h i

/-- Looking for the members of one set in the other gives the order of the join. -/
theorem subset_eq (s t : IndexSet) : s.subset t = decide (Domain.join s t = t) := by
  rw [Bool.eq_iff_iff, SortedSet.subset_iff, decide_eq_true_iff]
  exact le_iff.symm

end IndexSet

/-! ## Points-to maps -/

namespace PointsTo

/-- What a map says of a location: that it is present, or that `t` is one of its targets. -/
def Says (m : PointsTo) (l : Location) (x : Option Location) : Prop :=
  ∃ s, m.targets? l = some s ∧ ∀ t ∈ x, t ∈ s

variable {m n : PointsTo} {l k source t : Location} {x : Option Location}

theorem says_none : m.Says l none ↔ (m.targets? l).isSome = true := by
  simp [Says, Option.isSome_iff_exists]

theorem says_some : m.Says l (some t) ↔ t ∈ m.targets l := by
  unfold Says targets
  cases m.targets? l <;> simp

theorem Says.present (h : m.Says l x) : m.Says l none := by
  obtain ⟨s, hs, -⟩ := h
  exact ⟨s, hs, by simp⟩

/-- Maps that say the same of a location have the same entry there. -/
theorem targets?_eq_of_says (h : ∀ x, m.Says l x ↔ n.Says l x) : m.targets? l = n.targets? l := by
  have hpresent := h none
  rw [says_none, says_none] at hpresent
  have htargets : m.targets l = n.targets l :=
    SortedSet.ext_mem fun t => by rw [← says_some, ← says_some, h]
  unfold targets at htargets
  cases hm : m.targets? l <;> cases hn : n.targets? l <;> simp_all

/-- Maps that say the same are equal. -/
theorem ext_says (h : ∀ l x, m.Says l x ↔ n.Says l x) : m = n :=
  SortedMap.ext_get? fun l => targets?_eq_of_says (h l)

/-! ### Joins -/

theorem targets?_join (m n : PointsTo) (l : Location) :
    (Domain.join m n : PointsTo).targets? l =
      SortedMap.combine .union (m.targets? l) (n.targets? l) :=
  SortedMap.get?_mergeWith _ m n l

theorem says_combine {s s' : Option LocationSet} :
    (∃ u, SortedMap.combine .union s s' = some u ∧ ∀ t ∈ x, t ∈ u) ↔
      (∃ u, s = some u ∧ ∀ t ∈ x, t ∈ u) ∨ ∃ u, s' = some u ∧ ∀ t ∈ x, t ∈ u := by
  cases s <;> cases s' <;> cases x <;> simp [SortedMap.combine]

theorem says_join : (Domain.join m n : PointsTo).Says l x ↔ m.Says l x ∨ n.Says l x := by
  unfold Says
  rw [targets?_join]
  exact says_combine

theorem not_says_bottom (l : Location) (x : Option Location) :
    ¬ (Domain.bottom : PointsTo).Says l x := by
  simp [Says, targets?, Domain.bottom]

instance : LawfulDomain PointsTo where
  join_comm m n := ext_says fun l x => by simp only [says_join, or_comm]
  join_assoc m n p := ext_says fun l x => by simp only [says_join, or_assoc]
  join_self m := ext_says fun l x => by simp only [says_join, or_self]
  bottom_join m := ext_says fun l x => by simp only [says_join, not_says_bottom, false_or]

/-- A map lies below another one if the other one says all that it says. -/
theorem le_iff : Domain.LE m n ↔ ∀ l x, m.Says l x → n.Says l x := by
  constructor
  · intro h l x hx
    rw [← show (Domain.join m n : PointsTo) = n from h]
    exact says_join.2 (.inl hx)
  · intro h
    refine ext_says fun l x => ?_
    rw [says_join, or_iff_right_iff_imp]
    exact h l x

/-- The order in terms of entries: what is present stays present, and keeps its targets. -/
theorem le_iff_targets? :
    Domain.LE m n ↔ ∀ l s, m.targets? l = some s →
      ∃ s', n.targets? l = some s' ∧ ∀ t ∈ s, t ∈ s' := by
  rw [le_iff]
  constructor
  · intro h l s hs
    obtain ⟨s', hs', -⟩ := h l none ⟨s, hs, by simp⟩
    refine ⟨s', hs', fun t ht => ?_⟩
    obtain ⟨u, hu, hmem⟩ := h l (some t) ⟨s, hs, by simpa using ht⟩
    rw [Option.some.inj (hs'.symm.trans hu)]
    exact hmem t rfl
  · rintro h l x ⟨s, hs, hx⟩
    obtain ⟨s', hs', hsub⟩ := h l s hs
    exact ⟨s', hs', fun t ht => hsub t (hx t ht)⟩

/-! ### Operations -/

theorem says_addAll {s : LocationSet} :
    (m.addAll l s).Says k x ↔ m.Says k x ∨ (k = l ∧ ∀ t ∈ x, t ∈ s) := by
  unfold Says
  have htargets : (m.addAll l s).targets? k =
      SortedMap.combine .union (m.targets? k) (if l = k then some s else none) := by
    unfold addAll targets?
    rw [SortedMap.get?_mergeWith, SortedMap.get?_singleton]
  rw [htargets, says_combine]
  by_cases h : l = k
  · simp [h]
  · simp [h, Ne.symm h]

theorem says_add : (m.add l t).Says k x ↔ m.Says k x ∨ (k = l ∧ (x = none ∨ x = some t)) := by
  rw [add, says_addAll]
  cases x <;> simp

/-- An exact alias has the entry of its source. -/
theorem targets?_aliasOf (m : PointsTo) (l source k : Location) :
    (m.aliasOf l source).targets? k = m.targets? (if k = l then source else k) := by
  unfold aliasOf
  split_ifs with hsource hk hk
  · rw [hk, hsource]
  · rfl
  · cases h : m.targets? source with
    | none => exact (SortedMap.get?_erase m l k).trans (if_pos hk.symm)
    | some s => exact (SortedMap.get?_insert m l k s).trans (if_pos hk.symm)
  · cases h : m.targets? source with
    | none => exact (SortedMap.get?_erase m l k).trans (if_neg (Ne.symm hk))
    | some s => exact (SortedMap.get?_insert m l k s).trans (if_neg (Ne.symm hk))

theorem says_aliasOf :
    (m.aliasOf l source).Says k x ↔ m.Says (if k = l then source else k) x := by
  unfold Says
  rw [targets?_aliasOf]

theorem says_absorb :
    (m.absorb l source).Says k x ↔ m.Says k x ∨ (k = l ∧ m.Says source x) := by
  unfold absorb
  split_ifs with hsource
  · subst hsource
    constructor
    · exact .inl
    · rintro (h | ⟨rfl, h⟩) <;> exact h
  · cases h : m.targets? source with
    | none => simp [Says, h]
    | some s =>
      simp only [says_addAll]
      simp [Says, h]

end PointsTo

/-! ## Both domains -/

/-- Index sets and points-to maps are semilattices, with presence without targets as part of the
    order of maps. -/
theorem facts_isSemilattice :
    Domain.IsSemilattice IndexSet ∧ Domain.IsSemilattice PointsTo ∧
      (∀ s t : IndexSet, OrderTest.leq s t = s.subset t) ∧
      (∀ s t : IndexSet, s.subset t = decide (Domain.join s t = t)) ∧
      ∀ m n : PointsTo, OrderTest.leq m n = true ↔
        ∀ l s, m.targets? l = some s → ∃ s', n.targets? l = some s' ∧ ∀ t ∈ s, t ∈ s' := by
  refine ⟨Domain.isSemilattice_of_leq_eq IndexSet.subset_eq,
    Domain.isSemilattice_of_leq_eq fun m n => rfl, fun s t => rfl, IndexSet.subset_eq, ?_⟩
  intro m n
  rw [← PointsTo.le_iff_targets?]
  exact decide_eq_true_iff

example : OrderTest.leq (SortedMap.singleton (.value 1) .empty : PointsTo) .empty = false := by
  decide

end FlowFacts
