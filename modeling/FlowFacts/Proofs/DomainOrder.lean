import FlowFacts.Fact.Domain

/-!
# The order of a lawful domain

In a lawful domain `Domain.LE` is a partial order with `bottom` below everything, `join` is the
least upper bound of two values and `joinAll` that of a list.

Main results:

* `le_antisymm`: values below each other are equal.
* `join_le_iff`, `joinAll_le_iff`: what lies above a join.
* `joinAll_map_mono`: larger values have a larger join.
* `isSemilattice_of_leq_eq`: a lawful domain is a semilattice if its order test agrees with its join.
-/

namespace FlowFacts.Domain

variable {α : Type} [Domain α] [LawfulDomain α] {a b c : α}

open LawfulDomain

theorem le_refl (a : α) : LE a a := join_self a

theorem le_trans (hab : LE a b) (hbc : LE b c) : LE a c :=
  calc join a c = join a (join b c) := congrArg (join a) hbc.symm
    _ = join (join a b) c := (join_assoc a b c).symm
    _ = join b c := congrArg (join · c) hab
    _ = c := hbc

theorem le_antisymm (hab : LE a b) (hba : LE b a) : a = b :=
  calc a = join b a := hba.symm
    _ = join a b := join_comm b a
    _ = b := hab

theorem bottom_le (a : α) : LE bottom a := bottom_join a

theorem le_join_left (a b : α) : LE a (join a b) :=
  calc join a (join a b) = join (join a a) b := (join_assoc a a b).symm
    _ = join a b := by rw [join_self]

theorem le_join_right (a b : α) : LE b (join a b) := join_comm a b ▸ le_join_left b a

/-- What lies above a join lies above both sides, and the other way round. -/
theorem join_le_iff : LE (join a b) c ↔ LE a c ∧ LE b c := by
  constructor
  · intro h
    exact ⟨le_trans (le_join_left a b) h, le_trans (le_join_right a b) h⟩
  · rintro ⟨ha, hb⟩
    calc join (join a b) c = join a (join b c) := join_assoc a b c
      _ = join a c := congrArg (join a) hb
      _ = c := ha

/-- Joining a value that lies below changes nothing. -/
theorem join_eq_left_iff : join a b = a ↔ LE b a := by
  rw [join_comm]
  exact Iff.rfl

/-! ## Joins of lists -/

theorem foldl_join_le_iff (xs : List α) : LE (xs.foldl join a) b ↔ LE a b ∧ ∀ x ∈ xs, LE x b := by
  induction xs generalizing a with
  | nil => simp
  | cons x xs ih => rw [List.foldl_cons, ih, join_le_iff, List.forall_mem_cons, and_assoc]

theorem joinAll_le_iff {xs : List α} : LE (joinAll xs) b ↔ ∀ x ∈ xs, LE x b := by
  unfold joinAll
  rw [foldl_join_le_iff]
  exact and_iff_right (bottom_le b)

theorem le_joinAll {xs : List α} (h : a ∈ xs) : LE a (joinAll xs) :=
  joinAll_le_iff.1 (le_refl _) a h

/-- Larger values have a larger join. -/
theorem joinAll_map_mono {β : Type} {xs : List β} {f g : β → α} (h : ∀ x ∈ xs, LE (f x) (g x)) :
    LE (joinAll (xs.map f)) (joinAll (xs.map g)) := by
  rw [joinAll_le_iff]
  intro y hy
  obtain ⟨x, hx, rfl⟩ := List.mem_map.1 hy
  exact le_trans (h x hx) (le_joinAll (List.mem_map_of_mem hx))

/-! ## Semilattices -/

/-- A domain is a semilattice with a least value: it is lawful, and its order test answers whether
    joining adds nothing. That is a partial order, and joins are least upper bounds in it. -/
structure IsSemilattice (α : Type) [Domain α] [DecidableEq α] [OrderTest α] : Prop extends
    LawfulDomain α where
  join_bottom : ∀ a : α, join a bottom = a
  leq_eq : ∀ a b : α, OrderTest.leq a b = decide (join a b = b)
  leq_refl : ∀ a : α, OrderTest.leq a a = true
  leq_trans : ∀ a b c : α, OrderTest.leq a b = true → OrderTest.leq b c = true →
    OrderTest.leq a c = true
  leq_antisymm : ∀ a b : α, OrderTest.leq a b = true → OrderTest.leq b a = true → a = b
  bottom_leq : ∀ a : α, OrderTest.leq bottom a = true
  leq_join_left : ∀ a b : α, OrderTest.leq a (join a b) = true
  leq_join_right : ∀ a b : α, OrderTest.leq b (join a b) = true
  join_leq : ∀ a b c : α, OrderTest.leq a c = true → OrderTest.leq b c = true →
    OrderTest.leq (join a b) c = true

/-- A lawful domain whose order test agrees with the join is a semilattice. -/
theorem isSemilattice_of_leq_eq [DecidableEq α] [OrderTest α]
    (h : ∀ a b : α, OrderTest.leq a b = decide (join a b = b)) : IsSemilattice α := by
  have hleq : ∀ a b : α, OrderTest.leq a b = true ↔ LE a b := by
    intro a b
    rw [h, decide_eq_true_iff]
    exact Iff.rfl
  exact {
    join_bottom := fun a => (join_comm a bottom).trans (bottom_join a)
    leq_eq := h
    leq_refl := fun a => (hleq a a).2 (le_refl a)
    leq_trans := fun a b c hab hbc => (hleq a c).2 (le_trans ((hleq a b).1 hab) ((hleq b c).1 hbc))
    leq_antisymm := fun a b hab hba => le_antisymm ((hleq a b).1 hab) ((hleq b a).1 hba)
    bottom_leq := fun a => (hleq bottom a).2 (bottom_le a)
    leq_join_left := fun a b => (hleq a _).2 (le_join_left a b)
    leq_join_right := fun a b => (hleq b _).2 (le_join_right a b)
    join_leq := fun a b c hac hbc =>
      (hleq _ c).2 (join_le_iff.2 ⟨(hleq a c).1 hac, (hleq b c).1 hbc⟩) }

end FlowFacts.Domain
