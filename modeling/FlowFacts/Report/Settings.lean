import FlowFacts.Json.Decode
import FlowFacts.Program.NameError

/-!
# Settings of reports

The formats in which reports are rendered, and what a rendered report shows.
-/

namespace FlowFacts

/-- How reports are rendered. -/
inductive OutputFormat where
  | text
  | json
deriving DecidableEq

namespace OutputFormat

def name : OutputFormat → String
  | text => "text"
  | json => "json"

def ofName? : String → Option OutputFormat
  | "text" => some text
  | "json" => some json
  | _ => none

/-- A string with its ASCII letters in lower case. -/
def lowerCase (s : String) : String := String.ofList (s.toList.map Char.toLower)

/-- The format that a name in a request stands for, in upper or lower case. -/
def parse (s : String) : Except NameError OutputFormat :=
  match lowerCase s with
  | "text" | "txt" => .ok text
  | "json" => .ok json
  | other => .error (.format other)

end OutputFormat

/-- What to show in a rendered report. -/
structure ReportSettings where
  format : OutputFormat := .text
  useColors : Bool := true
  showStats : Bool := false
  showInstructions : Bool := false
deriving DecidableEq

namespace ReportSettings

/-- Text without colours. -/
def plain : ReportSettings := { useColors := false }

def toJson (s : ReportSettings) : Json :=
  .obj
    [("format", .str s.format.name), ("use_colors", .bool s.useColors),
      ("show_stats", .bool s.showStats), ("show_instructions", .bool s.showInstructions)]

def ofJson? (json : JsonText) : Option ReportSettings := do
  match ← json.record? ["format", "use_colors", "show_stats", "show_instructions"] with
  | [some format, some useColors, some showStats, some showInstructions] =>
    return {
      format := ← format.named? OutputFormat.ofName?
      useColors := ← useColors.bool?
      showStats := ← showStats.bool?
      showInstructions := ← showInstructions.bool? }
  | _ => none

end ReportSettings

end FlowFacts
