import FlowFacts.Cli.Command

/-!
# The command line program

Connects the commands to the files and streams of the machine.
-/

namespace FlowFacts

/-- The fault behind an error of the machine. -/
def FileFault.ofError : IO.Error → FileFault
  | .inappropriateType .. => .notDirectory
  | .resourceExhausted .. | .illegalOperation .. => .isDirectory
  | _ => .notFound

/-- Runs an action on files, with its error as a fault. -/
def attempt {α : Type} (act : IO α) : IO (Except FileFault α) := do
  try return .ok (← act)
  catch e => return .error (FileFault.ofError e)

/-- Whether a path names a directory of the machine. -/
def hasDirectoryAt (path : String) : IO Bool := do
  try return ← (← IO.FS.realPath path).isDir
  catch _ => return false

/-- The files at and below a path, by name at each level. -/
partial def filesAt (path : String) : IO (List String) := do
  if ← hasDirectoryAt path then
    let entries ← (← IO.FS.realPath path).readDir
    let names := (entries.toList.map (·.fileName)).mergeSort fun a b => a ≤ b
    return (← names.mapM fun name => filesAt (Path.join path name)).flatten
  else return [path]

instance : MonadFiles IO where
  isDirectory := hasDirectoryAt
  read path := do
    if ← hasDirectoryAt path then return .error .isDirectory
    match ← attempt (IO.FS.readBinFile path) with
    | .error fault => return .error fault
    | .ok bytes =>
      match String.fromUTF8? bytes with
      | some text => return .ok text
      | none => return .error .notText
  files path := attempt (filesAt path)
  write path content := do
    if ← hasDirectoryAt path then return .error .isDirectory
    attempt (IO.FS.writeFile path content)

end FlowFacts

/-- Does what the arguments ask for. Colours are shown only when the environment forces them. -/
def main (args : List String) : IO UInt32 := do
  let forced := (← IO.getEnv "CLICOLOR_FORCE").any (· ≠ "0")
  let outcome ← (FlowFacts.Request.ofArguments args).perform forced
  (← IO.getStdout).putStr outcome.output
  (← IO.getStderr).putStr outcome.errors
  return outcome.exit.toUInt32
