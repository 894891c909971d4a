/-!
# Paths

A path is a text: names with slashes between them. `stepsOf` divides it, `fileName` is what it ends
with, `ancestorsOf` are the directories above it, and `joinPath` puts a name behind it. Nothing here
asks whether anything stands at a path.
-/

namespace MessageSchema.Command

/-- The parts of a text that slashes divide. -/
def slashParts : List Char → List (List Char)
  | [] => [[]]
  | c :: cs =>
    if c == '/' then [] :: slashParts cs
    else
      match slashParts cs with
      | [] => [[c]]
      | part :: parts => (c :: part) :: parts

/-- The steps that a path takes: its names as they are written, where two slashes in a row and a
slash at either end have an empty name beside them. -/
def stepsOf (path : String) : List String :=
  (slashParts path.toList).map String.ofList

/-- The names of a path: its steps without those that stay in place. -/
def namesOf (path : String) : List String :=
  (stepsOf path).filter fun step => !step.isEmpty && step != "."

/-- Whether a path begins at the root. -/
def isAbsolute (path : String) : Bool :=
  path.toList.head? == some '/'

/-- The name of a file in its directory. -/
def fileName (path : String) : String :=
  match (namesOf path).getLast? with
  | some name => if name == ".." then path else name
  | none => path

/-- A name below a directory; one that begins with a slash stands for itself. -/
def joinPath (directory name : String) : String :=
  if isAbsolute name then name
  else
    match directory.toList.getLast? with
    | none => name
    | some '/' => directory ++ name
    | some _ => directory ++ "/" ++ name

/-- The beginnings of a list that are neither empty nor all of it, from the longest on. -/
def beginnings {α : Type} : List α → List (List α)
  | [] => []
  | [_] => []
  | a :: rest => (beginnings rest).map (a :: ·) ++ [[a]]

/-- The directories on the way to a path, from the nearest on; the one that the way begins at is
none of them. -/
def ancestorsOf (path : String) : List String :=
  let root := if isAbsolute path then "/" else ""
  (beginnings (namesOf path)).map fun names => root ++ "/".intercalate names

end MessageSchema.Command
