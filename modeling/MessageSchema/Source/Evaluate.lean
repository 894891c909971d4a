import MessageSchema.Source.Grammar
import MessageSchema.Source.Literal
import MessageSchema.Source.SyntaxError
import MessageSchema.Table

/-!
# Reading schemas

`Document.read?` reads a source as a document or reports where it is malformed. A document is
evaluated section by section: options are collected in order, the columns of a table are declared
before its rows, and all cells of a row are evaluated before the row is declared. The first step
that fails decides the error. `parse` does both.
-/

namespace MessageSchema.Source

/-- Why a source has no schema. -/
inductive SourceError where
  | malformed (error : SyntaxError)
  | badInteger (literal : String) (fault : IntegerFault)
  | table (error : TableError)

/-- The wording of a source error. -/
def SourceError.message : SourceError → String
  | .malformed error => "Parse error: " ++ error.message
  | .badInteger literal .tooLarge =>
    "Parse error: integer `" ++ literal ++ "`: number too large to fit in target type"
  | .badInteger literal .outOfRange => "Parse error: integer `" ++ literal ++ "` out of range"
  | .table error => error.message

/-- What a source declares: messages, and options in the order of the source. -/
structure SchemaSource where
  messages : List Message
  options : List (String × Cell)

/-- Reads a source. -/
def Document.read? (source : String) : Except SyntaxError Document :=
  let chars := source.toList
  match document (chars.length + 1) ⟨0, chars⟩ {} with
  | (some (sections, _), _) => .ok sections
  | (none, attempts) => .error (.ofAttempts chars attempts)

mutual

/-- The cell that a term stands for. -/
def Term.cell : Term → Except SourceError Cell
  | .absent => .ok .absent
  | .bool b => .ok (.bool b)
  | .integer literal =>
    match integerOfLiteral literal.toList with
    | .ok n => .ok (.integer n)
    | .error fault => .error (.badInteger literal fault)
  | .text spelling => .ok (.text (String.ofList (unescape spelling.toList)))
  | .list items => (cellsOfTerms items).map .list
  | .tuple items => (cellsOfTerms items).map .tuple

/-- The cells that terms stand for; the first that has none decides the error. -/
def cellsOfTerms : List Term → Except SourceError (List Cell)
  | [] => .ok []
  | term :: terms => do
    let cell ← term.cell
    let cells ← cellsOfTerms terms
    return cell :: cells

end

/-- What has been declared so far: the table and the options. -/
structure Declared where
  table : Table := {}
  options : List (String × Cell) := []

namespace Declared

/-- Goes on with the table after a step of building it. -/
def withTable (d : Declared) (step : Except TableError Table) : Except SourceError Declared :=
  match step with
  | .ok table => .ok { d with table }
  | .error error => .error (.table error)

/-- Declares an option. -/
def addOption (d : Declared) (entry : String × Term) : Except SourceError Declared := do
  let cell ← entry.2.cell
  return { d with options := d.options ++ [(entry.1, cell)] }

/-- Declares a row. -/
def addRow (d : Declared) (terms : List Term) : Except SourceError Declared := do
  let cells ← cellsOfTerms terms
  d.withTable (d.table.declareRow cells)

/-- Declares what a section says. -/
def addSection (d : Declared) : Section → Except SourceError Declared
  | .options entries => entries.foldlM addOption d
  | .table columns rows => do
    let d ← d.withTable (d.table.declareColumns columns)
    rows.foldlM addRow d

end Declared

/-- What a document declares. -/
def Document.evaluate (document : Document) : Except SourceError SchemaSource := do
  let d ← document.foldlM Declared.addSection {}
  return ⟨d.table.messages, d.options⟩

/-- Reads and evaluates a source. -/
def parse (source : String) : Except SourceError SchemaSource :=
  match Document.read? source with
  | .ok document => document.evaluate
  | .error error => .error (.malformed error)

end MessageSchema.Source
