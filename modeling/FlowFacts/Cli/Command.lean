import FlowFacts.Cli.Arguments
import FlowFacts.Program.Printer
import FlowFacts.Program.Tally
import FlowFacts.Report.Rendering
import FlowFacts.Report.Store
import FlowFacts.Storage.Load

/-!
# Running commands

A command reads its input, and ends with an exit code and with what it writes to the two output
streams. A command that fails says why, with the causes from the outermost to the innermost.
-/

namespace FlowFacts

/-- How a command ends: its exit code, and what goes to the standard output and to the standard
    error. -/
structure Outcome where
  exit : UInt8 := 0
  output : String := ""
  errors : String := ""
deriving DecidableEq

/-- Why a command fails, with the causes, the innermost one last. -/
structure Failure where
  message : String
  causes : List String := []
deriving DecidableEq

namespace Failure

/-- A cause behind its mark; its other lines start below the place where it starts. -/
def causeLines (mark cause : String) : String :=
  let margin := String.ofList (List.replicate mark.length ' ')
  mark ++ String.intercalate ("\n" ++ margin) (cause.splitOn "\n") ++ "\n"

/-- The causes, numbered if there is more than one. -/
def causeList : List String → List String
  | [cause] => [causeLines "    " cause]
  | causes => causes.mapIdx fun i cause => causeLines ("    " ++ toString i ++ ": ") cause

def text (f : Failure) : String :=
  "Error: " ++ f.message ++ "\n" ++
    match f.causes with
    | [] => ""
    | causes => "\nCaused by:\n" ++ String.join (causeList causes)

def ofLoad (path : String) (e : LoadError) : Failure := ⟨"failed to load " ++ path, e.chain⟩

def ofWrite (path : String) (fault : FileFault) : Failure :=
  ⟨"failed to write " ++ path, [fault.message]⟩

def noFunction (name path : String) : Failure :=
  ⟨"function @" ++ name ++ " not found in " ++ path, []⟩

def ofFlow (e : FlowError) : Failure := ⟨e.message, []⟩

end Failure

/-- The outcome of a command that writes `output` and then succeeds. -/
def Outcome.success (output : String) : Outcome := { output }

/-- The outcome of a command that writes `output` and then fails. -/
def Outcome.failure (f : Failure) (output : String) : Outcome :=
  { exit := 1, output, errors := f.text }

namespace Command

variable {m : Type → Type} [Monad m] [MonadFiles m]

/-- Runs `act` on the program at a path, or fails if it cannot be loaded. -/
def withProgram (path : String) (act : Module → m Outcome) : m Outcome := do
  match ← Module.load path with
  | .error e => return .failure (.ofLoad path e) ""
  | .ok program => act program

/-- The reports of an analysis on one function or on all functions of a program. -/
def reports (kind : AnalysisKind) (function : Option String) (order : Order) (path : String)
    (program : Module) : Except Failure (List Report) :=
  let store := (ReportStore.fresh { order }).register kind
  match function with
  | none => (store.runOnModule program).1.mapError .ofFlow
  | some name =>
    match program.function? name with
    | none => .error (.noFunction name path)
    | some f => ((store.runOnFunction kind f).1.map ([·])).mapError .ofFlow

/-- Analyses a program. The reports are rendered before anything is written. -/
def runAnalyze (kind : AnalysisKind) (function : Option String) (order : Order)
    (settings : ReportSettings) (output : Option String) (path : String) (colors : Bool) :
    m Outcome :=
  withProgram path fun program => do
    match reports kind function order path program with
    | .error f => return .failure f ""
    | .ok rs =>
      let text := Report.renderAll settings colors rs
      match output with
      | none => return .success text
      | some target =>
        match ← MonadFiles.write target text with
        | .error fault => return .failure (.ofWrite target fault) ""
        | .ok () => return .success ""

/-- A line for each opcode that occurs. -/
def countLines (counts : List (Opcode × Nat)) : String :=
  String.join (counts.map fun c => c.1.name ++ "\t" ++ toString c.2 ++ "\n")

/-- Counts the opcodes of one function or of a program. -/
def runCount (function : Option String) (path : String) : m Outcome :=
  withProgram path fun program =>
    match function with
    | none => return .success (countLines program.staticCounts)
    | some name =>
      match program.function? name with
      | none => return .failure (.noFunction name path) ""
      | some f => return .success (countLines f.staticCounts)

/-- The lines in front of a verdict. -/
def validateHeader (path : String) (colors : Bool) : String :=
  Style.title.paint colors " Validating IR" ++ "\n" ++
    Style.rule.paint colors (String.ofList (List.replicate 50 '=')) ++ "\n" ++
    " Input: " ++ path ++ "\n\n"

/-- The line on a valid program. -/
def validateLine (path : String) (program : Module) : String :=
  "   " ++ path ++ ": " ++ toString program.functions.size ++ " function(s), " ++
    toString (program.functions.values.foldl (fun n f => n + f.instructionCount) 0) ++
    " instruction(s)\n"

/-- The programs that a path stands for: those below a directory, or the one in a file. -/
def programsAt (path : String) : m (Except LoadError (List (String × Module))) := do
  if ← MonadFiles.isDirectory path then Module.loadAll path
  else return (← Module.load path).map fun program => [(path, program)]

/-- Checks a file, or every program file below a directory. -/
def runValidate (path : String) (verbose colors : Bool) : m Outcome := do
  let header := if verbose then validateHeader path colors else ""
  match ← programsAt path with
  | .ok programs =>
    return .success (header ++ Style.good.paint colors " VALID" ++ "\n" ++
      if verbose then String.join (programs.map fun p => validateLine p.1 p.2) else "")
  | .error e =>
    return .failure ⟨"Validation failed", []⟩ (header ++ Style.bad.paint colors " INVALID" ++
      "\n\n" ++ Style.alert.paint colors "Parse Error:" ++ "\n" ++ e.message ++ "\n")

def runPrint (path : String) : m Outcome :=
  withProgram path fun program => return .success program.text

end Command

/-- Runs a command; `terminalColors` says whether the terminal shows colours. -/
def Invocation.run {m : Type → Type} [Monad m] [MonadFiles m] (i : Invocation)
    (terminalColors : Bool) : m Outcome :=
  let colors := terminalColors && !i.noColor
  match i.command with
  | .analyze kind function order settings output =>
    Command.runAnalyze kind function order settings output i.input colors
  | .count function => Command.runCount function i.input
  | .validate => Command.runValidate i.input i.verbose colors
  | .print => Command.runPrint i.input

def versionText : String := "cfgflow 0.1.0\n"

def usageText : String :=
  "Usage: cfgflow [OPTIONS] <COMMAND>\n\n" ++
    "Commands:\n" ++
    "  analyze   Solve one analysis and print its edge facts\n" ++
    "  count     Static opcode counts\n" ++
    "  validate  Parse and check a file, or every .cfg file under a directory\n" ++
    "  print     Parse and print the IR back\n\n" ++
    "Options:\n" ++
    "  -v, --verbose   Say more\n" ++
    "      --no-color  Never use colours\n" ++
    "  -h, --help      Print help\n" ++
    "  -V, --version   Print version\n"

/-- Does what the arguments ask for. -/
def Request.perform {m : Type → Type} [Monad m] [MonadFiles m] (r : Request) (terminalColors : Bool) :
    m Outcome :=
  match r with
  | .run invocation => invocation.run terminalColors
  | .version => return .success versionText
  | .help => return .success usageText
  | .misuse => return { exit := 2, errors := usageText }

end FlowFacts
