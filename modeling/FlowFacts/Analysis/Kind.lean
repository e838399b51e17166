import FlowFacts.Analysis.Liveness
import FlowFacts.Analysis.Pointer
import FlowFacts.Analysis.Reaching
import FlowFacts.Program.NameError

/-!
# The analyses by name
-/

namespace FlowFacts

/-- One of the analyses of this library. -/
inductive AnalysisKind where
  | liveness
  | pointsTo
  | reaching
deriving DecidableEq

namespace AnalysisKind

def all : List AnalysisKind := [liveness, pointsTo, reaching]

/-- The name in texts. -/
def name : AnalysisKind → String
  | liveness => "liveness"
  | pointsTo => "pointer"
  | reaching => "reaching"

/-- The name in JSON. -/
def jsonName : AnalysisKind → String
  | liveness => "liveness"
  | pointsTo => "points_to"
  | reaching => "reaching_definitions"

/-- The analysis that a name in a request stands for. -/
def ofName? : String → Option AnalysisKind
  | "liveness" | "live" => some liveness
  | "pointer" | "points-to" | "points_to" => some pointsTo
  | "reaching" | "reaching-definitions" | "reaching_definitions" => some reaching
  | _ => none

/-- The analysis with the given name in JSON. -/
def ofJsonName? : String → Option AnalysisKind
  | "liveness" => some liveness
  | "points_to" => some pointsTo
  | "reaching_definitions" => some reaching
  | _ => none

/-- Which way the facts of the analysis travel. -/
def direction : AnalysisKind → Direction
  | liveness => Liveness.analysis.direction
  | pointsTo => Pointer.analysis.direction
  | reaching => Reaching.analysis.direction

end AnalysisKind

/-- The analysis that a name in a request stands for. -/
def AnalysisKind.parse (name : String) : Except NameError AnalysisKind :=
  match ofName? name with
  | some kind => .ok kind
  | none => .error (.analysis name)

end FlowFacts
