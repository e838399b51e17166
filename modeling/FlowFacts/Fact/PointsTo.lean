import FlowFacts.Collection.SortedMap
import FlowFacts.Fact.Domain
import FlowFacts.Fact.Location

/-!
# Points-to maps

The facts of the points-to analysis: for each location, the set of locations it may point to. A
location may be present with no target at all, which differs from being absent. Maps are joined
key by key.
-/

namespace FlowFacts

/-- A set of locations. -/
abbrev LocationSet : Type := SortedSet Location

/-- The locations that each location may point to. -/
abbrev PointsTo : Type := SortedMap Location LocationSet

namespace PointsTo

/-- The targets of a location, if it is present. -/
def targets? (m : PointsTo) (l : Location) : Option LocationSet := m.get? l

/-- The targets of a location; none if it is absent. -/
def targets (m : PointsTo) (l : Location) : LocationSet := (m.targets? l).getD .empty

/-- Whether `l` may point to `target`. -/
def pointsTo (m : PointsTo) (l target : Location) : Bool := target ∈ m.targets l

/-- Adds targets to a location, which is present afterwards. -/
def addAll (m : PointsTo) (l : Location) (targets : LocationSet) : PointsTo :=
  m.mergeWith .union (.singleton l targets)

def add (m : PointsTo) (l target : Location) : PointsTo := m.addAll l (.singleton target)

/-- Makes `l` an exact alias of `source`: what it pointed to before is dropped. -/
def aliasOf (m : PointsTo) (l source : Location) : PointsTo :=
  if l = source then m
  else
    match m.targets? source with
    | some targets => m.insert l targets
    | none => m.erase l

/-- Adds the targets of `source`, if it is present, to those of `l`. -/
def absorb (m : PointsTo) (l source : Location) : PointsTo :=
  if l = source then m
  else
    match m.targets? source with
    | some targets => m.addAll l targets
    | none => m

/-- The map with the given entries; entries of one location are joined. -/
def ofEntries (entries : List (Location × LocationSet)) : PointsTo :=
  entries.foldl (fun m e => m.addAll e.1 e.2) .empty

instance : Domain PointsTo := ⟨.empty, .mergeWith .union⟩

instance : OrderTest PointsTo := {}

/-- An entry as text, such as `R1->(M1/M2/)|`. -/
def entryText (e : Location × LocationSet) : String :=
  e.1.text ++ "->(" ++ String.join (e.2.items.map fun l => l.text ++ "/") ++ ")|"

/-- The entries as text, by ascending location. -/
def text (m : PointsTo) : String := String.join (m.entries.map entryText)

/-- The entries as JSON, by ascending location. -/
def toJson (m : PointsTo) : Json :=
  .list
    (fun e => .obj [("location", e.1.toJson), ("targets", .list Location.toJson e.2.items)])
    m.entries

def entryOfJson? (json : JsonText) : Option (Location × LocationSet) := do
  match ← json.record? ["location", "targets"] with
  | [some location, some targets] =>
    return (← Location.ofJson? location, .ofList (← targets.list? Location.ofJson?))
  | _ => none

/-- A map from a JSON list of entries. -/
def ofJson? (json : JsonText) : Option PointsTo := (json.list? entryOfJson?).map ofEntries

instance : Rendered PointsTo := ⟨text, toJson⟩

end PointsTo

end FlowFacts
