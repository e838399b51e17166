import FlowFacts.Analysis.Context
import FlowFacts.Fact.Domain

/-!
# Dataflow analyses

An analysis says which way facts travel and how an instruction changes them.
-/

namespace FlowFacts

/-- A dataflow analysis with facts of type `α`. The edge from the virtual node holds `initial`, the
    value of an edge grows at most `height` times, and `transfer` gives the values on the outgoing
    edges of an instruction from its index and what is known in front of it. -/
structure Analysis (α : Type) where
  name : String
  direction : Direction
  initial : α
  height : FlowGraph → Nat
  transfer : FlowContext → Instruction → Nat → α → List Edge → Except FlowFault (List α)

end FlowFacts
