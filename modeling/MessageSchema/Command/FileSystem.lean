import MessageSchema.Command.Path

/-!
# File systems

What the program asks of a file system. `FileSystem` lists the operations, each of which happens
completely or not at all; `FileSystem.createDirectories` is made of them.
-/

namespace MessageSchema.Command

/-- Why an operation on a file fails. -/
inductive FileError where
  | notFound
  | alreadyExists
  | notDirectory
  | isDirectory
  | invalidPath
  | nameTooLong
  | notText
  | other (text : String)
deriving DecidableEq, Repr

/-- The wording of a file error. -/
def FileError.message : FileError → String
  | .notFound => "No such file or directory (os error 2)"
  | .alreadyExists => "File exists (os error 17)"
  | .notDirectory => "Not a directory (os error 20)"
  | .isDirectory => "Is a directory (os error 21)"
  | .invalidPath => "Invalid argument (os error 22)"
  | .nameTooLong => "File name too long (os error 36)"
  | .notText => "stream did not contain valid UTF-8"
  | .other text => text

/-- The operations on files that the program needs. A text is staged in a directory first, outside
of every path that the program writes to, and is then put in its place or discarded. -/
structure FileSystem (m : Type → Type) (Staged : Type) where
  readText : (path : String) → m (Except FileError String)
  makeDirectory : (path : String) → m (Except FileError Unit)
  isDirectory : (path : String) → m Bool
  stage : (directory text : String) → m (Except FileError Staged)
  putInPlace : (staged : Staged) → (path : String) → m (Except FileError Unit)
  discard : (staged : Staged) → m Unit

namespace FileSystem

variable {m : Type → Type} [Monad m] {Staged : Type} (fs : FileSystem m Staged)

/-- The outcome of making a directory, where one that stands there already is as good. -/
def acceptDirectory (path : String) (outcome : Except FileError Unit) :
    m (Except FileError Unit) := do
  match outcome with
  | .ok () => return .ok ()
  | .error e =>
    if ← fs.isDirectory path then return .ok ()
    return .error e

/-- Creates the first of the directories, each of which is below the next. Those above are only
created if the way to the first turns out to be missing, and they stay if it still cannot be
created then. -/
def createFirst : List String → m (Except FileError Unit)
  | [] => return .ok ()
  | path :: above => do
    match ← fs.makeDirectory path with
    | .error .notFound =>
      match ← createFirst above with
      | .error e => return .error e
      | .ok () => fs.acceptDirectory path (← fs.makeDirectory path)
    | outcome => fs.acceptDirectory path outcome

/-- Creates a directory and those on the way to it, as far as they are missing. -/
def createDirectories (path : String) : m (Except FileError Unit) :=
  fs.createFirst (path :: ancestorsOf path)

end FileSystem

end MessageSchema.Command
