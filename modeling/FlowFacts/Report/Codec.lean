import FlowFacts.Json.Decode
import FlowFacts.Json.Parser
import FlowFacts.Report.Basic

/-!
# The JSON form of reports
-/

namespace FlowFacts

def Direction.ofJson? (json : JsonText) : Option Direction := json.named? ofName?

def AnalysisKind.ofJson? (json : JsonText) : Option AnalysisKind := json.named? ofJsonName?

namespace Stats

def toJson (s : Stats) : Json := .obj [("visits", .nat s.visits), ("updates", .nat s.updates)]

def ofJson? (json : JsonText) : Option Stats := do
  match ← json.record? ["visits", "updates"] with
  | [some visits, some updates] =>
    return { visits := ← visits.index?, updates := ← updates.index? }
  | _ => none

end Stats

namespace IndexedInstruction

def toJson (i : IndexedInstruction) : Json :=
  .obj [("index", .nat i.index), ("block", .str i.block), ("text", .str i.text)]

def ofJson? (json : JsonText) : Option IndexedInstruction := do
  match ← json.record? ["index", "block", "text"] with
  | [some index, some block, some text] =>
    return { index := ← index.index?, block := ← block.str?, text := ← text.str? }
  | _ => none

end IndexedInstruction

namespace Fact

def toJson (x : Fact) : Json :=
  .obj
    [("source", .nat x.source), ("target", .nat x.target), ("value", .str x.value),
      ("data", x.data)]

/-- How deep lists and objects may nest in the data of a fact: the fact, the list of facts and the
    report itself are around it. -/
def dataDepth : Nat := JsonText.maxDepth - 3

/-- A fact from JSON. Its data may be any value; the fields of objects inside are sorted. -/
def ofJson? (json : JsonText) : Option Fact := do
  match ← json.record? ["source", "target", "value", "data"] with
  | [some source, some target, some value, some data] =>
    return {
      source := ← source.index?
      target := ← target.index?
      value := ← value.str?
      data := (← data.value? dataDepth).sorted }
  | _ => none

end Fact

namespace Report

def toJson (r : Report) : Json :=
  .obj
    [("function", .str r.function), ("analysis", .str r.analysis.jsonName),
      ("direction", .str r.direction.name), ("stats", r.stats.toJson),
      ("instructions", .list IndexedInstruction.toJson r.instructions),
      ("facts", .list Fact.toJson r.facts)]

def ofJson? (json : JsonText) : Option Report := do
  match ← json.record?
      ["function", "analysis", "direction", "stats", "instructions", "facts"] with
  | [some function, some analysis, some direction, some stats, some instructions, some facts] =>
    return {
      function := ← function.str?
      analysis := ← AnalysisKind.ofJson? analysis
      direction := ← Direction.ofJson? direction
      stats := ← Stats.ofJson? stats
      instructions := ← instructions.list? IndexedInstruction.ofJson?
      facts := ← facts.list? Fact.ofJson? }
  | _ => none

/-- The report that a JSON text denotes. -/
def decode? (text : String) : Option Report := (JsonText.parse? text).bind ofJson?

end Report

end FlowFacts
