import FlowFacts.Source.Resolve
import FlowFacts.Storage.Access

/-!
# Loading modules from files
-/

namespace FlowFacts

/-- Why a module cannot be loaded: the file cannot be read, the directory cannot be searched, or the
    text does not denote a module. -/
inductive LoadError where
  | read (path : String) (fault : FileFault)
  | search (path : String) (fault : FileFault)
  | source (error : SourceError)
deriving DecidableEq

namespace LoadError

def message : LoadError → String
  | read path fault => "Failed to read " ++ path ++ ": " ++ fault.message
  | search path fault =>
    "Failed to read " ++ path ++ ": IO error for operation on " ++ path ++ ": " ++ fault.message
  | source error => error.message

/-- The error in words, followed by what caused it. -/
def chain : LoadError → List String
  | read path fault => [(read path fault).message, fault.message]
  | search path fault =>
    [(search path fault).message, "IO error for operation on " ++ path ++ ": " ++ fault.message]
  | source .malformed => [SourceError.malformed.message, SourceError.grammarDetail]
  | source error => [error.message]

end LoadError

namespace Module

variable {m : Type → Type} [Monad m] [MonadFiles m]

def fileExtension : String := "cfg"

/-- Loads a module, which is named after its file. -/
def load (path : String) : m (Except LoadError Module) := do
  match ← MonadFiles.read path with
  | .error fault => return .error (.read path fault)
  | .ok text =>
    return (Module.parse ((Path.stem? path).getD "module") text).mapError .source

/-- Loads files in order; the first failure decides. -/
def loadEach : List String → m (Except LoadError (List (String × Module)))
  | [] => return .ok []
  | path :: rest => do
    match ← load path with
    | .error e => return .error e
    | .ok program =>
      match ← loadEach rest with
      | .error e => return .error e
      | .ok programs => return .ok ((path, program) :: programs)

/-- Loads every program file at and below a path. -/
def loadAll (path : String) : m (Except LoadError (List (String × Module))) := do
  match ← MonadFiles.files path with
  | .error fault => return .error (.search path fault)
  | .ok files => loadEach (files.filter fun file => Path.extension? file = some fileExtension)

end Module

end FlowFacts
