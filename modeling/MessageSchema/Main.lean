import MessageSchema.Command.Run

/-!
# The program

The operations of the system's own files, and the program on them.
-/

namespace MessageSchema.Command

/-- The file error that a number of the system stands for; some operations negate it. -/
def FileError.ofNumber? (number : UInt32) : Option FileError :=
  match min number (0 - number) with
  | 2 => some .notFound
  | 17 => some .alreadyExists
  | 20 => some .notDirectory
  | 21 => some .isDirectory
  | 22 => some .invalidPath
  | 36 => some .nameTooLong
  | _ => none

/-- The file error that a system error stands for. -/
def FileError.ofSystem (error : IO.Error) : FileError :=
  let known := match error with
    | .noFileOrDirectory _ number _ => ofNumber? number
    | .alreadyExists _ number _ => ofNumber? number
    | .inappropriateType _ number _ => ofNumber? number
    | .invalidArgument _ number _ => ofNumber? number
    | _ => none
  known.getD (.other (toString error))

/-- Does an operation, with its error as an answer. -/
def attempt {α : Type} (operation : IO α) : IO (Except FileError α) := do
  match ← operation.toBaseIO with
  | .ok a => return .ok a
  | .error error => return .error (.ofSystem error)

/-- The text of a file in UTF-8. -/
def readSystemText (path : String) : IO (Except FileError String) := do
  match ← attempt (IO.FS.readBinFile path) with
  | .error error => return .error error
  | .ok content =>
    match String.fromUTF8? content with
    | some text => return .ok text
    | none => return .error .notText

/-- Whether a directory stands at a path. -/
def isSystemDirectory (path : String) : IO Bool := do
  match ← attempt (IO.FS.realPath path) with
  | .ok resolved => resolved.isDir
  | .error _ => return false

/-- Writes a text to a new file in a directory; the answer is the path of that file. -/
def stageSystemText (directory text : String) : IO (Except FileError String) := do
  let scratch := joinPath directory (".unit" ++ toString (← IO.monoNanosNow))
  let written ← attempt (IO.FS.writeFile scratch text)
  return written.map fun () => scratch

/-- The files of the system. -/
def systemFiles : FileSystem IO String where
  readText path := readSystemText path
  makeDirectory path := attempt (IO.FS.createDir path)
  isDirectory path := isSystemDirectory path
  stage directory text := stageSystemText directory text
  putInPlace scratch path := attempt (IO.FS.rename scratch path)
  discard scratch := do
    let _ ← attempt (IO.FS.removeFile scratch)

end MessageSchema.Command

open MessageSchema.Command in
/-- Runs the program on the system's files. -/
def main (arguments : List String) : IO UInt32 := do
  let report ← run systemFiles arguments
  IO.print report.stdout
  IO.eprint report.stderr
  return .ofNat report.exitCode
