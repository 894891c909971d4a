import MessageSchema.Command.Arguments
import MessageSchema.Command.Report
import MessageSchema.Command.FileTree

/-!
# Running the program

`run` carries out the request of the arguments on a file system and reports what to print and how
to exit. `generate` compiles a schema and prints its units or writes them to a directory: all units
are staged before the first is put in its place. `describe` lists discriminants and record sizes.
-/

namespace MessageSchema.Command

open Memory Output

/-- What the program prints, and its exit code. -/
structure Report where
  exitCode : Nat := 0
  stdout : String := ""
  stderr : String := ""
deriving DecidableEq, Repr

/-- The settings that the options of a request stand for. -/
def GenerateRequest.overrides (r : GenerateRequest) : List (String × Cell) :=
  (if r.split then [("emit_mode", .text "split")] else []) ++
    (if r.legacySizeField then [("size_field", .text "legacy")] else []) ++
    (if r.permissiveDiscriminants then [("discriminants", .text "permissive")] else []) ++
    (r.symbolRoot.map fun root => ("prefix", .text root)).toList

/-- Units as they are printed: with empty lines between them. -/
def printedUnits (units : List OutputUnit) : String :=
  "\n".intercalate (units.map (·.text))

section Effects

variable {m : Type → Type} [Monad m] {Staged : Type} (fs : FileSystem m Staged)

/-- A unit that has been staged, and where it goes. -/
structure StagedUnit (Staged : Type) where
  staged : Staged
  path : String

/-- Discards what has been staged. -/
def discardAll (units : List (StagedUnit Staged)) : m Unit :=
  units.forM fun u => fs.discard u.staged

/-- Stages units, behind those that are staged already. A unit that would replace a directory, or
that cannot be staged, ends the writing. -/
def stageUnits (directory : String) (staged : List (StagedUnit Staged)) :
    List OutputUnit → m (Except Failure (List (StagedUnit Staged)))
  | [] => return .ok staged
  | unit :: units => do
    let path := joinPath directory unit.name
    if ← fs.isDirectory path then
      discardAll fs staged
      return .error ⟨path ++ " is a directory", []⟩
    match ← fs.stage directory unit.text with
    | .error e =>
      discardAll fs staged
      return .error (.during ("staging " ++ path) e.message)
    | .ok s => stageUnits directory (staged ++ [⟨s, path⟩]) units

/-- Puts staged units in their places, one after the other, up to the first that fails. -/
def placeUnits : List (StagedUnit Staged) → m (Except Failure Unit)
  | [] => return .ok ()
  | unit :: units => do
    match ← fs.putInPlace unit.staged unit.path with
    | .error e =>
      discardAll fs (unit :: units)
      return .error ⟨"writing " ++ unit.path,
        ["failed to persist temporary file: " ++ e.message, e.message]⟩
    | .ok () => placeUnits units

/-- Writes units into a directory, which is created if it is missing. -/
def writeUnits (directory : String) (units : List OutputUnit) : m (Except Failure Unit) := do
  match ← fs.createDirectories directory with
  | .error e => return .error (.during ("creating " ++ directory) e.message)
  | .ok () =>
    match ← stageUnits fs directory [] units with
    | .error failure => return .error failure
    | .ok staged => placeUnits fs staged

/-- Reads the source of a schema and loads it. -/
def loadFile (path : String) (overrides : List (String × Cell)) :
    m (Except Failure LoadedSchema) := do
  match ← fs.readText path with
  | .error e => return .error (.during ("reading " ++ path) e.message)
  | .ok source =>
    return (load source overrides).mapError fun e => .during path e.message

/-- Carries out the command `generate`; the answer is what to print. -/
def generateFile (schema : String) (r : GenerateRequest) : m (Except Failure String) := do
  match ← loadFile fs schema r.overrides with
  | .error failure => return .error failure
  | .ok loaded =>
    match Generated.generate loaded.settings loaded.protocol (fileName schema) with
    | .error e => return .error (.during ("generating from " ++ schema) e.message)
    | .ok units =>
      match r.outDir with
      | none => return .ok (printedUnits units)
      | some directory =>
        let written ← writeUnits fs directory units
        return written.map fun () => ""

/-- Carries out the command `describe`; the answer is what to print. -/
def describeFile (schema : String) (model : DataModel) : m (Except Failure String) := do
  match ← loadFile fs schema [] with
  | .error failure => return .error failure
  | .ok loaded =>
    match ProtocolLayout.compute loaded.protocol model .little with
    | .error e => return .error ⟨e.message, []⟩
    | .ok layout => return .ok (describeProtocol loaded layout)

/-- The name and version of the program. -/
def versionText : String :=
  "ipcmsgc 0.1.0\n"

/-- How the program is used. -/
def usageText : String :=
  "Usage:\n" ++
    "  ipcmsgc generate SCHEMA [-o DIR | --stdout] [--split] [--legacy-size-field]\n" ++
    "                          [--permissive-discriminants] [--prefix P]\n" ++
    "  ipcmsgc describe SCHEMA [--model lp64|ilp32]\n"

/-- The report on a request that was carried out. -/
def reportOf : Except Failure String → Report
  | .ok stdout => { stdout }
  | .error failure => { exitCode := 1, stderr := failure.message }

/-- Runs the program. -/
def run (arguments : List String) : m Report := do
  match Request.ofArguments? arguments with
  | none => return { exitCode := 2, stderr := usageText }
  | some .version => return { stdout := versionText }
  | some .help => return { stdout := usageText }
  | some (.generate schema r) => return reportOf (← generateFile fs schema r)
  | some (.describe schema model) => return reportOf (← describeFile fs schema model)

end Effects

/-- Runs the program on a file tree: the report, and the tree afterwards. -/
def runOn (tree : FileTree) (arguments : List String) : Report × FileTree :=
  run FileTree.fileSystem arguments tree

end MessageSchema.Command
