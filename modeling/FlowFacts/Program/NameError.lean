import FlowFacts.Program.Opcode

/-!
# Names that stand for nothing

The error of looking up an opcode, an analysis or an output format by name.
-/

namespace FlowFacts

/-- A name that stands for no opcode, no analysis or no output format. -/
inductive NameError where
  | opcode (name : String)
  | analysis (name : String)
  | format (name : String)
deriving DecidableEq

def NameError.message : NameError → String
  | .opcode name => "Unknown opcode: " ++ name
  | .analysis name => "Unknown analysis: " ++ name
  | .format name => "unknown output format: " ++ name

def Opcode.parse (name : String) : Except NameError Opcode :=
  match ofName? name with
  | some op => .ok op
  | none => .error (.opcode name)

end FlowFacts
