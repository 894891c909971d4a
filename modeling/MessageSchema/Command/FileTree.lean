import MessageSchema.Command.FileSystem

/-!
# File trees

A file system that is a value. A `FileTree` has a node at every location where something stands, and
a working directory, which paths begin at unless they begin at the root. `FileTree.follow` takes the
steps of a path one by one, and `FileTree.fileSystem` has the operations of a file system.
-/

namespace MessageSchema.Command

/-- A place in a file tree: the names from the root down to it. -/
abbrev Location := List String

/-- Takes a step; `.` and nothing stay, and `..` goes up, but not above the root. -/
def Location.step (p : Location) (name : String) : Location :=
  if name.isEmpty || name == "." then p
  else if name == ".." then p.dropLast
  else p ++ [name]

/-- What can stand at a location. -/
inductive Node where
  | file (content : List UInt8)
  | directory
deriving DecidableEq, Repr

/-- Directories and files, and the directory that the program works in. -/
structure FileTree where
  nodes : List (Location × Node) := []
  workingDirectory : Location := []
deriving DecidableEq, Repr

/-- How many bytes a name can have. -/
def longestName : Nat := 255

/-- How many bytes a path can have. -/
def longestPath : Nat := 4095

namespace FileTree

/-- What stands at a location; the root is a directory. -/
def node? (t : FileTree) (p : Location) : Option Node :=
  if p.isEmpty then some .directory else t.nodes.lookup p

/-- Puts a node at a location, in place of what was there. -/
def put (t : FileTree) (p : Location) (node : Node) : FileTree :=
  { t with nodes := t.nodes.filter (·.1 != p) ++ [(p, node)] }

/-- Takes steps from a location on. Each needs a directory to be taken from, so only what the last
one leads to may be missing. -/
def follow (t : FileTree) (p : Location) : List String → Except FileError Location
  | [] => .ok p
  | name :: names =>
    match t.node? p with
    | none => .error .notFound
    | some (.file _) => .error .notDirectory
    | some .directory =>
      if longestName < name.utf8ByteSize then .error .nameTooLong
      else t.follow (p.step name) names

/-- The location that steps of a path lead to, if the path can be one at all. -/
def locateBy (t : FileTree) (path : String) (steps : List String) : Except FileError Location :=
  if path.toList.contains '\x00' then .error .invalidPath
  else if path.isEmpty then .error .notFound
  else if longestPath < path.utf8ByteSize then .error .nameTooLong
  else t.follow (if isAbsolute path then [] else t.workingDirectory) steps

/-- The location that a path leads to. -/
def locate (t : FileTree) (path : String) : Except FileError Location :=
  t.locateBy path (stepsOf path)

/-- The location that a path leads to if slashes at its end do not count: something that is to
stand there need not be a directory yet. -/
def locateEntry (t : FileTree) (path : String) : Except FileError Location :=
  t.locateBy path ((stepsOf path).reverse.dropWhile String.isEmpty).reverse

/-- The bytes of a file. -/
def readBytes (t : FileTree) (path : String) : Except FileError (List UInt8) := do
  match t.node? (← t.locate path) with
  | none => .error .notFound
  | some .directory => .error .isDirectory
  | some (.file content) => .ok content

/-- The text of a file in UTF-8. -/
def readText (t : FileTree) (path : String) : Except FileError String := do
  match String.fromUTF8? ⟨(← t.readBytes path).toArray⟩ with
  | some text => .ok text
  | none => .error .notText

/-- Whether a directory stands at a path. -/
def isDirectory (t : FileTree) (path : String) : Bool :=
  match t.locate path with
  | .ok p => t.node? p == some .directory
  | .error _ => false

/-- Makes a directory at a path, in a directory that exists. -/
def makeDirectory (t : FileTree) (path : String) : Except FileError FileTree := do
  let p ← t.locateEntry path
  match t.node? p with
  | some _ => .error .alreadyExists
  | none => .ok (t.put p .directory)

/-- Puts a text at a path, in a directory that exists. No directory may stand there, and a path with
a slash at its end is one for directories only. -/
def writeText (t : FileTree) (path text : String) : Except FileError FileTree := do
  let p ← t.locateEntry path
  match t.node? p with
  | some .directory => .error .isDirectory
  | _ =>
    if path.toList.getLast? = some '/' then .error .notDirectory
    else .ok (t.put p (.file text.toUTF8.data.toList))

/-- An operation that changes the tree unless it fails. -/
def update (step : FileTree → Except FileError FileTree) :
    StateM FileTree (Except FileError Unit) := fun t =>
  match step t with
  | .ok t' => (.ok (), t')
  | .error e => (.error e, t)

/-- The operations of a file system on a tree; what is staged is not in the tree. -/
def fileSystem : FileSystem (StateM FileTree) String where
  readText path := fun t => (t.readText path, t)
  makeDirectory path := update (·.makeDirectory path)
  isDirectory path := fun t => (t.isDirectory path, t)
  stage directory text := fun t =>
    (if t.isDirectory directory then .ok text else .error .notFound, t)
  putInPlace text path := update (·.writeText path text)
  discard _ := pure ()

/-- Puts a directory at a location unless something stands there. -/
def putDirectory (t : FileTree) (p : Location) : FileTree :=
  if (t.node? p).isSome then t else t.put p .directory

/-- Adds a directory, with those above it. -/
def addDirectory (t : FileTree) (p : Location) : FileTree :=
  ((p :: beginnings p).reverse).foldl putDirectory t

/-- Adds a file, with the directories above it. -/
def addFile (t : FileTree) (p : Location) (content : List UInt8) : FileTree :=
  (t.addDirectory p.dropLast).put p (.file content)

end FileTree

end MessageSchema.Command
