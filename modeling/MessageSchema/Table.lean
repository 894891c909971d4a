import MessageSchema.Column
import MessageSchema.Message.Basic

/-!
# Schema tables

A `Table` is built in steps: `declareColumns` once, then `declareRow` for each message, with one
cell per column in the order of the columns. Every step either gives the next table or fails with
a `TableError`; a failed step leaves the table it was taken on as it is.
-/

namespace MessageSchema

/-- What a cell must be to stand where it stands. -/
inductive CellForm where
  | nonEmptyText
  | integerOrAbsent
  | textOrAbsent
  | fieldsOrAbsent
  | field
  | tailOrAbsent
deriving DecidableEq, Repr

/-- The wording of an expected form. -/
def CellForm.expected : CellForm → String
  | .nonEmptyText => "a non-empty string"
  | .integerOrAbsent => "an integer or none"
  | .textOrAbsent => "a string or none"
  | .fieldsOrAbsent => "a list of fields or none"
  | .field => "a \"type name\" string or (type, name) pair"
  | .tailOrAbsent => "an (element type, name) pair or none"

/-- A row, by its number from 1 on and by the message name in it if there is one. -/
structure RowLocation where
  number : Nat
  name : Option String
deriving DecidableEq, Repr

/-- The wording of a location. -/
def RowLocation.text (l : RowLocation) : String :=
  match l.name with
  | some name => "row " ++ toString l.number ++ " (`" ++ name ++ "`)"
  | none => "row " ++ toString l.number

/-- Why a step of building a table fails. -/
inductive TableError where
  | columnsNotDeclared
  | columnsAlreadyDeclared
  | duplicateColumn (column : Column)
  | missingColumn (column : Column)
  | arityMismatch (row expected found : Nat)
  | invalidCell (location : RowLocation) (column : Column) (expected : CellForm)
      (found : CellKind)
  | invalidField (location : RowLocation) (declaration : String) (fault : DeclarationFault)
deriving DecidableEq, Repr

/-- The wording of a table error. -/
def TableError.message : TableError → String
  | .columnsNotDeclared => "row declared before columns"
  | .columnsAlreadyDeclared => "columns already declared"
  | .duplicateColumn c => "duplicate column `" ++ c.canonicalName ++ "`"
  | .missingColumn c => "missing required column `" ++ c.canonicalName ++ "`"
  | .arityMismatch row expected found =>
    "row " ++ toString row ++ ": expected " ++ toString expected ++ " values, found " ++
      toString found
  | .invalidCell l c form found =>
    l.text ++ ": column `" ++ c.canonicalName ++ "` expects " ++ form.expected ++ ", found " ++
      found.name
  | .invalidField l declaration fault =>
    "message `" ++ l.text ++ "`: invalid field declaration `" ++ declaration ++ "`: " ++
      fault.message

/-- A table under construction: its columns, once declared, and a message for each row. -/
structure Table where
  columns : Option (List Column) := none
  messages : List Message := []

namespace Table

/-- The columns every table needs. -/
def requiredColumns : List Column :=
  [.name, .shortName]

/-- The columns that the names stand for, behind `earlier` ones; no column may stand twice. -/
def columnsOfNames (earlier : List Column) : List String → Except TableError (List Column)
  | [] => .ok earlier
  | name :: names =>
    let column := Column.ofName name
    if column ∈ earlier then .error (.duplicateColumn column)
    else columnsOfNames (earlier ++ [column]) names

/-- Fixes the columns and their order. -/
def declareColumns (t : Table) (names : List String) : Except TableError Table :=
  if t.columns.isSome then .error .columnsAlreadyDeclared
  else
    match columnsOfNames [] names with
    | .error e => .error e
    | .ok columns =>
      match requiredColumns.find? (· ∉ columns) with
      | some missing => .error (.missingColumn missing)
      | none => .ok { t with columns := some columns }

/-- One item of the column of fields: a declaration, or a pair of type and name. -/
def fieldOfCell (location : RowLocation) : Cell → Except TableError Field
  | .text declaration =>
    match Field.ofDeclaration declaration with
    | .ok field => .ok field
    | .error fault => .error (.invalidField location declaration fault)
  | .tuple [.text type, .text name] => .ok (.ofPair type name)
  | other => .error (.invalidCell location .fields .field other.kind)

/-- The cells of the column of fields. -/
def fieldsOfCell (location : RowLocation) : Cell → Except TableError (List Field)
  | .absent => .ok []
  | .list items => items.mapM (fieldOfCell location)
  | other => .error (.invalidCell location .fields .fieldsOrAbsent other.kind)

/-- The cell of the column of the tail: a pair, as a tuple or as a list. -/
def tailOfCell (location : RowLocation) : Cell → Except TableError (Option Tail)
  | .absent => .ok none
  | .tuple [.text type, .text name] => .ok (some ⟨type, name⟩)
  | .list [.text type, .text name] => .ok (some ⟨type, name⟩)
  | other => .error (.invalidCell location .tail .tailOrAbsent other.kind)

/-- The cell of a column that must hold a non-empty text. -/
def nonEmptyOfCell (location : RowLocation) (column : Column) :
    Cell → Except TableError String
  | .text s =>
    if s.isEmpty then .error (.invalidCell location column .nonEmptyText .text) else .ok s
  | other => .error (.invalidCell location column .nonEmptyText other.kind)

/-- Enters one cell of a row into the message that the row declares. -/
def setCell (location : RowLocation) (m : Message) (column : Column) (cell : Cell) :
    Except TableError Message :=
  match column with
  | .name => (nonEmptyOfCell location .name cell).map ({ m with name := · })
  | .shortName => (nonEmptyOfCell location .shortName cell).map ({ m with shortName := · })
  | .value =>
    match cell with
    | .absent => .ok m
    | .integer n => .ok { m with explicitValue := some n }
    | other => .error (.invalidCell location .value .integerOrAbsent other.kind)
  | .description =>
    match cell with
    | .absent => .ok m
    | .text s => .ok { m with description := some s }
    | other => .error (.invalidCell location .description .textOrAbsent other.kind)
  | .fields => (fieldsOfCell location cell).map ({ m with fields := · })
  | .tail => (tailOfCell location cell).map ({ m with tail := · })
  | .extra label => .ok { m with extras := m.extras.set label cell }

/-- The message of a row: its cells are entered from left to right, and the first that does not
fit its column decides the error. -/
def messageOfRow (location : RowLocation) (columns : List Column) (cells : List Cell) :
    Except TableError Message :=
  (columns.zip cells).foldlM (fun m (column, cell) => setCell location m column cell)
    { name := "", shortName := "" }

/-- The cell of the column of names, if it is a text. -/
def rowName (columns : List Column) (cells : List Cell) : Option String :=
  ((columns.zip cells).find? (·.1 == .name)).bind (·.2.text?)

/-- The message that a row of the table declares. -/
def rowMessage (t : Table) (cells : List Cell) : Except TableError Message :=
  match t.columns with
  | none => .error .columnsNotDeclared
  | some columns =>
    let row := t.messages.length + 1
    if cells.length ≠ columns.length then
      .error (.arityMismatch row columns.length cells.length)
    else messageOfRow ⟨row, rowName columns cells⟩ columns cells

/-- Appends the message of a row. -/
def declareRow (t : Table) (cells : List Cell) : Except TableError Table :=
  (t.rowMessage cells).map fun m => { t with messages := t.messages ++ [m] }

end Table

end MessageSchema
