import FlowFacts.Analysis.Kind
import FlowFacts.Analysis.Solver
import FlowFacts.Report.Settings

/-!
# Command line arguments

Arguments are read from left to right: switches that hold for every command, the name of a command,
then the switches of the command and its input path. A switch is written with its long name or with
its letter, if it has one; its value follows in the same argument or in the next one. After `--`
nothing is a switch.
-/

namespace FlowFacts

/-- What to do with the input: render the reports of an analysis, count opcodes, check a file or
    every program file below a directory, or print the program. -/
inductive Command where
  | analyze (kind : AnalysisKind) (function : Option String) (order : Order)
      (settings : ReportSettings) (output : Option String)
  | count (function : Option String)
  | validate
  | print
deriving DecidableEq

/-- A command with its input path and with what holds for every command. -/
structure Invocation where
  command : Command
  input : String
  verbose : Bool
  noColor : Bool
deriving DecidableEq

/-- What a list of arguments asks for. -/
inductive Request where
  | run (invocation : Invocation)
  | version
  | help
  | misuse
deriving DecidableEq

/-- The names of the commands. -/
inductive CommandName where
  | analyze
  | count
  | validate
  | print
deriving DecidableEq

def CommandName.ofName? : String → Option CommandName
  | "analyze" => some analyze
  | "count" => some count
  | "validate" => some validate
  | "print" => some print
  | _ => none

/-- What is asked for by the topics behind `help`: at most one command may be named. -/
def Request.helpOn : List String → Request
  | [] => .help
  | [topic] => if topic = "help" ∨ (CommandName.ofName? topic).isSome then .help else .misuse
  | _ => .misuse

/-- What can be given by name on a command line. -/
inductive Switch where
  | verbose
  | noColor
  | version
  | help
  | analysis
  | function
  | format
  | order
  | stats
  | annotate
  | output
deriving DecidableEq

namespace Switch

def long : Switch → String
  | verbose => "verbose"
  | noColor => "no-color"
  | version => "version"
  | help => "help"
  | analysis => "analysis"
  | function => "function"
  | format => "format"
  | order => "order"
  | stats => "stats"
  | annotate => "annotate"
  | output => "output"

def letter? : Switch → Option Char
  | verbose => some 'v'
  | version => some 'V'
  | help => some 'h'
  | analysis => some 'a'
  | function => some 'f'
  | output => some 'o'
  | _ => none

def takesValue : Switch → Bool
  | analysis | function | format | order | output => true
  | _ => false

/-- The analysis with the given name on a command line. -/
def analysisOf? (value : String) : Option AnalysisKind :=
  AnalysisKind.all.find? fun kind => kind.name = value

/-- Whether a value suits the switch. -/
def accepts (value : String) : Switch → Bool
  | analysis => (analysisOf? value).isSome
  | format => (OutputFormat.ofName? value).isSome
  | order => (Order.ofName? value).isSome
  | output => value ≠ ""
  | _ => true

/-- The switches that may stand before the name of a command, or behind the given one. -/
def allowed : Option CommandName → List Switch
  | none => [verbose, noColor, version, help]
  | some .analyze =>
    [verbose, noColor, help, analysis, function, format, order, stats, annotate, output]
  | some .count => [verbose, noColor, help, function]
  | some .validate | some .print => [verbose, noColor, help]

end Switch

/-- Arguments read so far. Switches are kept apart by whether they came before the command;
    `pending` is the switch whose value is next, and `literal` tells that `--` was read. -/
structure Arguments where
  command : Option CommandName := none
  before : List Switch := []
  given : List (Switch × String) := []
  pending : Option Switch := none
  literal : Bool := false
  input : Option String := none

namespace Arguments

/-- Whether a switch was given at this level. -/
def has (a : Arguments) (s : Switch) : Bool :=
  match a.command with
  | none => s ∈ a.before
  | some _ => a.given.any fun g => g.1 = s

def value? (a : Arguments) (s : Switch) : Option String :=
  (a.given.find? fun g => g.1 = s).map Prod.snd

/-- Whether a switch was given at any level. -/
def isOn (a : Arguments) (s : Switch) : Bool := s ∈ a.before || (a.value? s).isSome

/-- Takes a switch with its value, which is empty for a switch without one. -/
def give (a : Arguments) (s : Switch) (value : String) : Except Request Arguments :=
  match s with
  | .version => .error .version
  | .help => .error .help
  | s =>
    if a.has s || !s.accepts value then .error .misuse
    else
      match a.command with
      | none => .ok { a with before := s :: a.before }
      | some _ => .ok { a with given := (s, value) :: a.given, pending := none }

/-- Takes a switch whose value, if there is one in the same argument, is `attached`. -/
def take (a : Arguments) (s : Switch) (attached : Option String) : Except Request Arguments :=
  match s.takesValue, attached with
  | true, some value => a.give s value
  | true, none => if a.has s then .error .misuse else .ok { a with pending := some s }
  | false, some _ => .error .misuse
  | false, none => a.give s ""

/-- Takes an argument that starts with two hyphens, given what stands behind them. -/
def takeLong (a : Arguments) (text : List Char) : Except Request Arguments :=
  let name := String.ofList (text.takeWhile (· ≠ '='))
  let attached := match text.dropWhile (· ≠ '=') with
    | [] => none
    | _ :: value => some (String.ofList value)
  match (Switch.allowed a.command).find? fun s => s.long = name with
  | some s => a.take s attached
  | none => .error .misuse

/-- Takes an argument that starts with one hyphen, given the letters behind it. -/
def takeLetters (a : Arguments) : List Char → Except Request Arguments
  | [] => .ok a
  | c :: rest =>
    match (Switch.allowed a.command).find? fun s => s.letter? = some c with
    | none => .error .misuse
    | some s =>
      if s.takesValue then
        match rest with
        | [] => a.take s none
        | '=' :: value => a.take s (some (String.ofList value))
        | value => a.take s (some (String.ofList value))
      else do (← a.take s none).takeLetters rest

/-- Takes an argument that is not a switch: the value of the switch before it, the name of the
    command, or the path of the input. -/
def takePlain (a : Arguments) (text : String) : Except Request Arguments :=
  match a.pending, a.command, a.input with
  | some s, _, _ => if a.literal then .error .misuse else a.give s text
  | none, none, _ =>
    match CommandName.ofName? text with
    | some name => if a.literal then .error .misuse else .ok { a with command := some name }
    | none => .error .misuse
  | none, some _, none => if text = "" then .error .misuse else .ok { a with input := some text }
  | none, some _, some _ => .error .misuse

def next (a : Arguments) (text : String) : Except Request Arguments :=
  if a.literal then a.takePlain text
  else
    match text.toList with
    | ['-', '-'] => .ok { a with literal := true }
    | '-' :: '-' :: rest => if a.pending.isSome then .error .misuse else a.takeLong rest
    | '-' :: c :: rest => if a.pending.isSome then .error .misuse else a.takeLetters (c :: rest)
    | _ => a.takePlain text

/-- The command that the arguments ask for, once all of them are read. -/
def command? (a : Arguments) : Option Command :=
  match a.command with
  | none => none
  | some .count => some (.count (a.value? .function))
  | some .validate => some .validate
  | some .print => some .print
  | some .analyze => do
    let kind ← (a.value? .analysis).bind Switch.analysisOf?
    let output := a.value? .output
    return .analyze kind (a.value? .function)
      (((a.value? .order).bind Order.ofName?).getD .fifo)
      { format := ((a.value? .format).bind OutputFormat.ofName?).getD .text
        useColors := !a.isOn .noColor && output.isNone
        showStats := a.isOn .stats
        showInstructions := a.isOn .annotate }
      output

/-- What the arguments ask for, once all of them are read. -/
def request (a : Arguments) : Request :=
  match a.pending, a.command?, a.input with
  | none, some command, some input =>
    .run ⟨command, input, a.isOn .verbose, a.isOn .noColor⟩
  | _, _, _ => .misuse

/-- Whether an argument asks for help where the name of a command may stand. -/
def asksHelp (a : Arguments) (text : String) : Bool :=
  a.command.isNone && !a.literal && text = "help"

/-- Takes the remaining arguments. -/
def readAll (a : Arguments) : List String → Request
  | [] => a.request
  | text :: rest =>
    if a.asksHelp text then Request.helpOn rest
    else
      match a.next text with
      | .ok a => a.readAll rest
      | .error request => request

end Arguments

def Request.ofArguments (args : List String) : Request := Arguments.readAll {} args

end FlowFacts
