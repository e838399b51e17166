import FlowFacts.Json.Printer
import FlowFacts.Report.Codec
import FlowFacts.Report.Settings
import FlowFacts.Text.Style

/-!
# Rendering reports

Reports are rendered as text, a line for each edge, or as JSON. Text may be coloured; colour
codes are written only if both the settings and the terminal allow them.
-/

namespace FlowFacts

namespace Report

/-- The first line of a report. -/
def headerLine (r : Report) : String :=
  "; " ++ r.analysis.name ++ " (" ++ r.direction.name ++ ") @" ++ r.function

def instructionLine (i : IndexedInstruction) : String :=
  "; " ++ padLeft 4 (toString i.index) ++ "  " ++ padRight 12 i.block ++ " " ++ i.text

/-- The line with the work of the run. -/
def statsLine (r : Report) : String :=
  "; " ++ toString r.stats.visits ++ " visits, " ++ toString r.stats.updates ++ " updates, " ++
    toString r.facts.length ++ " edges"

/-- A report as text; `colors` says whether the terminal shows colours. -/
def renderText (settings : ReportSettings) (colors : Bool) (r : Report) : String :=
  let on := settings.useColors && colors
  Style.header.paint on r.headerLine ++ "\n" ++
    (if settings.showInstructions then
      String.join (r.instructions.map fun i => Style.dimmed.paint on (instructionLine i) ++ "\n")
    else "") ++
    r.text ++
    (if settings.showStats then Style.yellow.paint on r.statsLine ++ "\n" else "")

/-- A single report. -/
def render (settings : ReportSettings) (colors : Bool) (r : Report) : String :=
  match settings.format with
  | .text => r.renderText settings colors
  | .json => r.toJson.pretty ++ "\n"

/-- Several reports as one document: texts with an empty line between them, or one JSON list. -/
def renderAll (settings : ReportSettings) (colors : Bool) (rs : List Report) : String :=
  match settings.format with
  | .text => "\n".intercalate (rs.map (renderText settings colors))
  | .json => (Json.list toJson rs).pretty ++ "\n"

end Report

end FlowFacts
