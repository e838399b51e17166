import FlowFacts.Analysis.Pointer
import FlowFacts.Proofs.FactOrder
import Mathlib.Data.List.Basic

/-!
# The rules of the points-to analysis

What a points-to map says after a load and after a store, that all rules are monotone, and which
shape of maps they keep: targets are memory objects, and every location that is present has a
target.

Main results:

* `Pointer.says_load`, `Pointer.says_store`: what a load and a store add.
* `Pointer.load_mono`, `Pointer.store_mono`, `PointsTo.aliasOf_mono` and so on: larger maps stay
  larger.
* `PointsTo.Shaped.load`, `PointsTo.Shaped.store` and so on: the shape of maps is kept.
-/

namespace FlowFacts

/-! ## Loads and stores -/

namespace PointsTo

variable {m : PointsTo} {l k : Location} {x : Option Location}

/-- Absorbing several other locations, one after the other, adds what was said of each at first. -/
theorem says_foldl_absorb {sources : List Location} (hne : ∀ s ∈ sources, s ≠ l) :
    (sources.foldl (fun m s => m.absorb l s) m).Says k x ↔
      m.Says k x ∨ (k = l ∧ ∃ s ∈ sources, m.Says s x) := by
  induction sources generalizing m with
  | nil => simp
  | cons s sources ih =>
    rw [List.forall_mem_cons] at hne
    -- Absorbing `s` leaves the other sources alone, since none of them is `l`.
    have hother : (∃ s' ∈ sources, (m.absorb l s).Says s' x) ↔ ∃ s' ∈ sources, m.Says s' x := by
      refine exists_congr fun s' => and_congr_right fun hs' => ?_
      simp [says_absorb, hne.2 s' hs']
    rw [List.foldl_cons, ih hne.2, hother, says_absorb, List.exists_mem_cons_iff, or_assoc,
      ← and_or_left]

/-- Adding several targets to a location adds the location only if there is a target. -/
theorem says_foldl_add {targets : List Location} :
    (targets.foldl (fun m t => m.add l t) m).Says k x ↔
      m.Says k x ∨ (k = l ∧ ∃ t ∈ targets, x = none ∨ x = some t) := by
  induction targets generalizing m with
  | nil => simp
  | cons t targets ih =>
    rw [List.foldl_cons, ih, says_add, List.exists_mem_cons_iff, or_assoc, ← and_or_left]

theorem says_foldl_foldl_add {slots targets : List Location} :
    (slots.foldl (fun m l => targets.foldl (fun m t => m.add l t) m) m).Says k x ↔
      m.Says k x ∨ (k ∈ slots ∧ ∃ t ∈ targets, x = none ∨ x = some t) := by
  induction slots generalizing m with
  | nil => simp
  | cons l slots ih =>
    rw [List.foldl_cons, ih, says_foldl_add, List.mem_cons, or_assoc, ← or_and_right]

end PointsTo

namespace Pointer

variable {m : PointsTo} {k : Location} {x : Option Location} {result pointer value : Nat}

/-- After a load the result has in addition what the memory objects behind the pointer have. -/
theorem says_load :
    (load m result pointer).Says k x ↔ m.Says k x ∨ (k = .value result ∧
      ∃ o, m.Says (.value pointer) (some o) ∧ o.isMemory = true ∧ m.Says o x) := by
  unfold load
  rw [PointsTo.says_foldl_absorb]
  · simp only [List.mem_filter, ← SortedSet.mem_def, PointsTo.says_some, and_assoc]
  · intro o ho heq
    rw [List.mem_filter, heq] at ho
    cases ho.2

/-- After a store each slot behind the pointer has in addition the targets of the value. -/
theorem says_store :
    (store m value pointer).Says k x ↔ m.Says k x ∨ (m.Says (.value pointer) (some k) ∧
      ∃ t, m.Says (.value value) (some t) ∧ (x = none ∨ x = some t)) := by
  unfold store
  rw [PointsTo.says_foldl_foldl_add]
  simp only [← SortedSet.mem_def, PointsTo.says_some]

end Pointer

/-! ## Monotonicity -/

namespace PointsTo

variable {m n : PointsTo} (h : Domain.LE m n)

include h

theorem add_mono (l t : Location) : Domain.LE (m.add l t) (n.add l t) := by
  refine le_iff.2 fun k x => ?_
  rw [says_add, says_add]
  exact Or.imp_left (le_iff.1 h k x)

/-- An alias follows its source: replacing an entry is monotone because the new entry is. -/
theorem aliasOf_mono (l source : Location) :
    Domain.LE (m.aliasOf l source) (n.aliasOf l source) := by
  refine le_iff.2 fun k x => ?_
  rw [says_aliasOf, says_aliasOf]
  exact le_iff.1 h _ x

theorem absorb_mono (l source : Location) :
    Domain.LE (m.absorb l source) (n.absorb l source) := by
  refine le_iff.2 fun k x => ?_
  rw [says_absorb, says_absorb]
  exact Or.imp (le_iff.1 h k x) (And.imp_right (le_iff.1 h source x))

end PointsTo

namespace Pointer

variable {m n : PointsTo} (h : Domain.LE m n)

include h

theorem load_mono (result pointer : Nat) :
    Domain.LE (load m result pointer) (load n result pointer) := by
  have h := PointsTo.le_iff.1 h
  refine PointsTo.le_iff.2 fun k x => ?_
  rw [says_load, says_load]
  rintro (hk | ⟨rfl, o, ho, hmemory, hx⟩)
  · exact .inl (h k x hk)
  · exact .inr ⟨rfl, o, h _ _ ho, hmemory, h o x hx⟩

theorem store_mono (value pointer : Nat) :
    Domain.LE (store m value pointer) (store n value pointer) := by
  have h := PointsTo.le_iff.1 h
  refine PointsTo.le_iff.2 fun k x => ?_
  rw [says_store, says_store]
  rintro (hk | ⟨hslot, t, ht, hx⟩)
  · exact .inl (h k x hk)
  · exact .inr ⟨h _ _ hslot, t, h _ _ ht, hx⟩

end Pointer

/-! ## Shape -/

/-- A location of a value in `V` or of a memory object in `A`. -/
def Location.Within (A V : Nat → Prop) : Location → Prop
  | .value i => V i
  | .memory i => A i

/-- The maps that the rules produce: only locations within bounds are present, targets are memory
    objects, and no location is present without a target. -/
structure PointsTo.Shaped (A V : Nat → Prop) (m : PointsTo) : Prop where
  within : ∀ {l x}, m.Says l x → l.Within A V
  target : ∀ {l t}, m.Says l (some t) → ∃ i, A i ∧ t = .memory i
  inhabited : ∀ {l x}, m.Says l x → ∃ t, m.Says l (some t)

namespace PointsTo.Shaped

variable {A V : Nat → Prop} {m n : PointsTo} {l source : Location}

theorem bottom (A V : Nat → Prop) : Shaped A V (Domain.bottom : PointsTo) where
  within h := absurd h (not_says_bottom _ _)
  target h := absurd h (not_says_bottom _ _)
  inhabited h := absurd h (not_says_bottom _ _)

theorem join (hm : Shaped A V m) (hn : Shaped A V n) : Shaped A V (Domain.join m n) where
  within h := (says_join.1 h).elim hm.within hn.within
  target h := (says_join.1 h).elim hm.target hn.target
  inhabited h := by
    rcases says_join.1 h with h | h
    · exact (hm.inhabited h).imp fun t ht => says_join.2 (.inl ht)
    · exact (hn.inhabited h).imp fun t ht => says_join.2 (.inr ht)

theorem add (hm : Shaped A V m) (hl : l.Within A V) {i : Nat} (hi : A i) :
    Shaped A V (m.add l (.memory i)) where
  within h := by
    rcases says_add.1 h with h | ⟨rfl, -⟩
    · exact hm.within h
    · exact hl
  target h := by
    rcases says_add.1 h with h | ⟨-, h | h⟩
    · exact hm.target h
    · cases h
    · exact ⟨i, hi, Option.some.inj h⟩
  inhabited h := by
    rcases says_add.1 h with h | ⟨rfl, -⟩
    · exact (hm.inhabited h).imp fun t ht => says_add.2 (.inl ht)
    · exact ⟨.memory i, says_add.2 (.inr ⟨rfl, .inr rfl⟩)⟩

theorem aliasOf (hm : Shaped A V m) (hl : l.Within A V) : Shaped A V (m.aliasOf l source) where
  within {k x} h := by
    rw [says_aliasOf] at h
    split_ifs at h with hk
    · exact hk ▸ hl
    · exact hm.within h
  target h := hm.target (says_aliasOf.1 h)
  inhabited h := (hm.inhabited (says_aliasOf.1 h)).imp fun t ht => says_aliasOf.2 ht

theorem absorb (hm : Shaped A V m) (hl : l.Within A V) : Shaped A V (m.absorb l source) where
  within h := by
    rcases says_absorb.1 h with h | ⟨rfl, -⟩
    · exact hm.within h
    · exact hl
  target h := (says_absorb.1 h).elim hm.target fun h => hm.target h.2
  inhabited h := by
    rcases says_absorb.1 h with h | ⟨rfl, hsource⟩
    · exact (hm.inhabited h).imp fun t ht => says_absorb.2 (.inl ht)
    · exact (hm.inhabited hsource).imp fun t ht => says_absorb.2 (.inr ⟨rfl, ht⟩)

open Pointer in
theorem load (hm : Shaped A V m) {result : Nat} (hresult : V result) (pointer : Nat) :
    Shaped A V (load m result pointer) where
  within h := by
    rcases says_load.1 h with h | ⟨rfl, -⟩
    · exact hm.within h
    · exact hresult
  target h := by
    rcases says_load.1 h with h | ⟨-, o, -, -, h⟩
    · exact hm.target h
    · exact hm.target h
  inhabited h := by
    rcases says_load.1 h with h | ⟨rfl, o, ho, hmemory, h⟩
    · exact (hm.inhabited h).imp fun t ht => says_load.2 (.inl ht)
    · exact (hm.inhabited h).imp fun t ht => says_load.2 (.inr ⟨rfl, o, ho, hmemory, ht⟩)

open Pointer in
/-- The slots of a store are targets, hence memory objects within bounds themselves. -/
theorem store (hm : Shaped A V m) (value pointer : Nat) : Shaped A V (store m value pointer) where
  within h := by
    rcases says_store.1 h with h | ⟨hslot, -⟩
    · exact hm.within h
    · obtain ⟨i, hi, rfl⟩ := hm.target hslot
      exact hi
  target h := by
    rcases says_store.1 h with h | ⟨-, t, ht, h | h⟩
    · exact hm.target h
    · cases h
    · exact Option.some.inj h ▸ hm.target ht
  inhabited h := by
    rcases says_store.1 h with h | ⟨hslot, t, ht, -⟩
    · exact (hm.inhabited h).imp fun t ht => says_store.2 (.inl ht)
    · exact ⟨t, says_store.2 (.inr ⟨hslot, t, ht, .inr rfl⟩)⟩

end PointsTo.Shaped

end FlowFacts
