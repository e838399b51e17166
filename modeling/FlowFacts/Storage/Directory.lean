/-!
# Directories as values

The files that a command sees: a tree of named entries, looked up by slash-separated paths.
-/

namespace FlowFacts

/-- Why a file cannot be read or written: nothing has the path, a file stands where a directory is
    needed or a directory where a file is needed, or the content is not encoded text. -/
inductive FileFault where
  | notFound
  | notDirectory
  | isDirectory
  | notText
deriving DecidableEq

def FileFault.message : FileFault → String
  | .notFound => "No such file or directory (os error 2)"
  | .notDirectory => "Not a directory (os error 20)"
  | .isDirectory => "Is a directory (os error 21)"
  | .notText => "stream did not contain valid UTF-8"

/-- A path, split at its slashes; names that stay in place are left out. It can only name a
    directory if it ends in a slash or stays in place, and it ends in dots if, slashes apart, its
    last part stays in place or leads upwards. -/
structure Path where
  absolute : Bool
  names : List String
  directoryOnly : Bool
  endsInDots : Bool
deriving DecidableEq

namespace Path

/-- The parts of a text between slashes. -/
def parts (text : String) : List String := text.splitOn "/"

def ofText (text : String) : Path where
  absolute := text.toList.head? = some '/'
  names := (parts text).filter fun name => name ≠ "" ∧ name ≠ "."
  directoryOnly := (parts text).getLast?.all fun name => name = "" ∨ name = "."
  endsInDots := ((parts text).filter (· ≠ "")).getLast?.all fun name => name = "." ∨ name = ".."

/-- The text of the path of an entry of a directory. -/
def join (text name : String) : String :=
  if text = "" ∨ text.toList.getLast? = some '/' then text ++ name else text ++ "/" ++ name

/-- The last name of a path, unless it leads upwards. -/
def fileName? (text : String) : Option String :=
  match (ofText text).names.getLast? with
  | some ".." => none
  | name => name

/-- Splits a file name at its last dot. A dot in front does not count. -/
def splitName (name : String) : String × Option String :=
  let after := (name.toList.reverse.takeWhile (· ≠ '.')).reverse
  let before := name.toList.take (name.length - after.length - 1)
  if before.isEmpty then (name, none) else (String.ofList before, some (String.ofList after))

/-- The file name without its extension. -/
def stem? (text : String) : Option String := (fileName? text).map fun name => (splitName name).1

/-- The extension of the file name. -/
def extension? (text : String) : Option String := (fileName? text).bind fun name => (splitName name).2

end Path

/-- A file with its content, or a directory with its entries by name. -/
inductive FileTree where
  | file (content : ByteArray)
  | directory (entries : List (String × FileTree))

namespace FileTree

instance : Inhabited FileTree := ⟨directory []⟩

def isDirectory : FileTree → Bool
  | file _ => false
  | directory _ => true

/-- The entry of a directory with the given name. -/
def child? : FileTree → String → Except FileFault FileTree
  | file _, _ => .error .notDirectory
  | directory entries, name =>
    match entries.find? fun e => e.1 = name with
    | some e => .ok e.2
    | none => .error .notFound

/-- Writes an entry into a list sorted by name. -/
def insertEntry (name : String) (tree : FileTree) :
    List (String × FileTree) → List (String × FileTree)
  | [] => [(name, tree)]
  | e :: rest =>
    if name < e.1 then (name, tree) :: e :: rest
    else if name = e.1 then (name, tree) :: rest
    else e :: insertEntry name tree rest

/-- Replaces what is at a place, creating directories on the way; a new place is an empty
    directory before it is replaced. -/
def alter (f : FileTree → FileTree) : List String → FileTree → FileTree
  | [], tree => f tree
  | name :: rest, tree =>
    let entries := match tree with
      | directory entries => entries
      | file _ => []
    let inner := ((entries.find? fun e => e.1 = name).map Prod.snd).getD (directory [])
    directory (insertEntry name (alter f rest inner) entries)

/-- A place in a tree, with the directories around it, the innermost first, and the names on the way
    to it, the last one first. A place outside the tree has no directories around it. -/
structure Place where
  tree : FileTree
  around : List FileTree
  names : List String

namespace Place

/-- Where a path starts: at the root of the tree, or outside it. Nothing is known to be outside. -/
def start (root : FileTree) (path : Path) : Place :=
  if path.absolute then ⟨directory [], [], []⟩ else ⟨root, [directory []], []⟩

/-- The directory around a place. -/
def up (place : Place) : Place :=
  match place.around with
  | [] => place
  | tree :: around => ⟨tree, around, place.names.tail⟩

/-- Follows one name. -/
def step (place : Place) (name : String) : Except FileFault Place := do
  if name = ".." then
    if place.tree.isDirectory then return place.up else .error .notDirectory
  else return ⟨← place.tree.child? name, place.tree :: place.around, name :: place.names⟩

def follow (place : Place) (names : List String) : Except FileFault Place := names.foldlM step place

end Place

/-- What a path names. -/
def lookup (root : FileTree) (text : String) : Except FileFault FileTree := do
  let path := Path.ofText text
  if text = "" then .error .notFound
  else
    let place ← (Place.start root path).follow path.names
    if path.directoryOnly ∧ !place.tree.isDirectory then .error .notDirectory
    else return place.tree

def hasDirectory (root : FileTree) (text : String) : Bool :=
  match root.lookup text with
  | .ok tree => tree.isDirectory
  | .error _ => false

def content (root : FileTree) (text : String) : Except FileFault ByteArray := do
  match ← root.lookup text with
  | file content => return content
  | directory _ => .error .isDirectory

def read (root : FileTree) (text : String) : Except FileFault String := do
  match String.fromUTF8? (← root.content text) with
  | some s => return s
  | none => .error .notText

/-- Writes a file, new or not. Its directory has to exist, and a path that can only name a directory
    is refused. -/
def write (root : FileTree) (text content : String) : Except FileFault FileTree := do
  let path := Path.ofText text
  match path.endsInDots, path.names.reverse with
  | false, name :: outer =>
    let place ← (Place.start root path).follow outer.reverse
    match place.tree.child? name with
    | .error .notDirectory => .error .notDirectory
    | .ok (directory _) => .error .isDirectory
    | _ =>
      if path.directoryOnly then .error .isDirectory
      else if place.around.isEmpty then .error .notFound
      else return alter (fun _ => file content.toUTF8) (place.names.reverse ++ [name]) root
  | _, _ =>
    let _ ← root.lookup text
    .error .isDirectory

/-- The tree with the given files and directories, each with its path. -/
def ofListing (files : List (String × ByteArray)) (directories : List String) : FileTree :=
  let root := directories.foldl (fun root text => alter id (Path.ofText text).names root)
    (directory [])
  files.foldl (fun root f => alter (fun _ => file f.2) (Path.ofText f.1).names root) root

mutual

/-- The paths of the files in a tree, by name at each level, given the path of the tree. -/
def files (text : String) : FileTree → List String
  | file _ => [text]
  | directory entries => filesIn text entries

/-- The paths of the files in the entries of a directory. -/
def filesIn (text : String) : List (String × FileTree) → List String
  | [] => []
  | (name, tree) :: rest => files (Path.join text name) tree ++ filesIn text rest

end

end FileTree

end FlowFacts
