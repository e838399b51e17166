import FlowFacts.Storage.Directory

/-!
# Access to files

The file operations that loading and the commands need. A `FileTree` as state offers them, and so
can the file system of the machine.
-/

namespace FlowFacts

/-- Monads that can read and write files, named by their paths. The files at and below a path come
    by name at each level. -/
class MonadFiles (m : Type → Type) where
  isDirectory : String → m Bool
  read : String → m (Except FileFault String)
  files : String → m (Except FileFault (List String))
  write : String → String → m (Except FileFault Unit)

instance : MonadFiles (StateM FileTree) where
  isDirectory path := do return (← get).hasDirectory path
  read path := do return (← get).read path
  files path := do return ((← get).lookup path).map (·.files path)
  write path content := do
    match (← get).write path content with
    | .ok tree =>
      set tree
      return .ok ()
    | .error fault => return .error fault

end FlowFacts
