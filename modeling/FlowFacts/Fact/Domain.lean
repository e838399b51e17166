import FlowFacts.Json.Basic

/-!
# Fact domains

The values that an analysis keeps on edges: a least value and a way to join two values. What is
expected of them is collected in `LawfulDomain`; the solver runs without it.
-/

namespace FlowFacts

/-- Values that can be joined; `bottom` stands for knowing nothing. -/
class Domain (α : Type) where
  bottom : α
  join : α → α → α

/-- Values that can be shown as text and as JSON, with the fields of objects sorted by name. -/
class Rendered (α : Type) where
  text : α → String
  toJson : α → Json

namespace Domain

variable {α : Type} [Domain α]

/-- The order induced by the join: `a` adds nothing to `b`. -/
def LE (a b : α) : Prop := join a b = b

instance [DecidableEq α] (a b : α) : Decidable (LE a b) := inferInstanceAs (Decidable (_ = _))

/-- The join of a list of values. -/
def joinAll (xs : List α) : α := xs.foldl join bottom

end Domain

/-- A test of the order of a domain. Joining two values and comparing decides it; a domain may have
    a test of its own. -/
class OrderTest (α : Type) [Domain α] [DecidableEq α] where
  leq (a b : α) : Bool := decide (Domain.join a b = b)

/-- A domain whose join is that of a semilattice with a least element. -/
class LawfulDomain (α : Type) [Domain α] : Prop where
  join_comm : ∀ a b : α, Domain.join a b = Domain.join b a
  join_assoc : ∀ a b c : α, Domain.join (Domain.join a b) c = Domain.join a (Domain.join b c)
  join_self : ∀ a : α, Domain.join a a = a
  bottom_join : ∀ a : α, Domain.join Domain.bottom a = a

end FlowFacts
