/-!
# Strict linear orders

The order that sorted collections are kept in: a decidable `<` that is irreflexive, transitive
and compares any two different elements.
-/

namespace FlowFacts

/-- A decidable strict linear order. -/
class StrictOrder (α : Type) extends LT α where
  decLt : (a b : α) → Decidable (a < b)
  lt_irrefl : ∀ a : α, ¬ a < a
  lt_trans : ∀ {a b c : α}, a < b → b < c → a < c
  eq_of_not_lt : ∀ {a b : α}, ¬ a < b → ¬ b < a → a = b

namespace StrictOrder

variable {α : Type} [StrictOrder α]

instance (a b : α) : Decidable (a < b) := decLt a b

instance : StrictOrder Nat where
  decLt := Nat.decLt
  lt_irrefl := Nat.lt_irrefl
  lt_trans := Nat.lt_trans
  eq_of_not_lt h₁ h₂ := by omega

theorem lt_asymm {a b : α} (h : a < b) : ¬ b < a := fun h' => lt_irrefl a (lt_trans h h')

theorem ne_of_lt {a b : α} (h : a < b) : a ≠ b := fun e => lt_irrefl b (e ▸ h)

end StrictOrder

end FlowFacts
