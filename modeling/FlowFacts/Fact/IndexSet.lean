import FlowFacts.Collection.SortedSet
import FlowFacts.Fact.Domain
import FlowFacts.Json.Decode

/-!
# Sets of instruction indices

The facts of liveness and reaching definitions. Sets are joined by union.
-/

namespace FlowFacts

/-- A set of instruction indices. -/
abbrev IndexSet : Type := SortedSet Nat

namespace IndexSet

instance : Domain IndexSet := ⟨.empty, .union⟩

/-- Sets are compared by looking for the members of one in the other. -/
instance : OrderTest IndexSet := ⟨SortedSet.subset⟩

/-- The indices in ascending order, each followed by a bar. -/
def text (s : IndexSet) : String := String.join (s.items.map fun i => toString i ++ "|")

/-- The indices as a JSON list, in ascending order. -/
def toJson (s : IndexSet) : Json := .list .nat s.items

/-- A set from a JSON list, in any order and with repetitions. -/
def ofJson? (json : JsonText) : Option IndexSet :=
  (json.list? JsonText.index?).map SortedSet.ofList

instance : Rendered IndexSet := ⟨text, toJson⟩

end IndexSet

end FlowFacts
