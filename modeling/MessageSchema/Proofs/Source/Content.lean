import Mathlib.Data.List.Forall2
import MessageSchema.Proofs.Source.Rendering
import MessageSchema.Source.Evaluate

/-!
# What schemas say, apart from how they are written

A `Part` of a schema holds the contents of its cells: integers are numbers of any size and texts
have no escapes. `evaluate` takes the clauses of a list of parts one by one: an option is added to
the options, columns are declared, the cells of a row are computed and the row is declared. The
first clause that is refused decides the error.

- **Renderings** (`IsRendering`): the sources that a list of parts can be written as.
- **Answers** (`Answers`): what reading a source may end with, given what evaluating ends with. They
  differ only in an integer that does not fit: its error shows how it is spelled.
-/

namespace MessageSchema.Source

/-! ## Contents -/

/-- The content of a cell. -/
inductive Content where
  | absent
  | bool (value : Bool)
  | integer (value : Int)
  | text (value : String)
  | list (items : List Content)
  | tuple (items : List Content)

/-- A block of options, or a table. -/
inductive Part where
  | options (entries : List (String × Content))
  | table (columns : List String) (rows : List (List Content))

/-- The content of a term. -/
inductive Term.Denotes : Term → Content → Prop
  | absent : Term.Denotes .absent .absent
  | bool (b : Bool) : Term.Denotes (.bool b) (.bool b)
  | integer {s : String} {n : Int} :
    SpellsInteger s.toList n → Term.Denotes (.integer s) (.integer n)
  | text {s text : String} :
    SpellsText s.toList text.toList → Term.Denotes (.text s) (.text text)
  | list {items : List Term} {contents : List Content} :
    List.Forall₂ Term.Denotes items contents → Term.Denotes (.list items) (.list contents)
  | tuple {items : List Term} {contents : List Content} :
    List.Forall₂ Term.Denotes items contents → Term.Denotes (.tuple items) (.tuple contents)

/-- The part that a section is. -/
inductive Section.Denotes : Section → Part → Prop
  | options {entries : List (String × Term)} {contents : List (String × Content)} :
    List.Forall₂ (fun e c => e.1 = c.1 ∧ e.2.Denotes c.2) entries contents →
      Section.Denotes (.options entries) (.options contents)
  | table {columns : List String} {rows : List (List Term)} {contents : List (List Content)} :
    List.Forall₂ (List.Forall₂ Term.Denotes) rows contents →
      Section.Denotes (.table columns rows) (.table columns contents)

/-- The parts that a document has. -/
def Document.Denotes (document : Document) (parts : List Part) : Prop :=
  List.Forall₂ Section.Denotes document parts

/-- The source is written in one of the ways in which the parts can be written. -/
def IsRendering (parts : List Part) (source : String) : Prop :=
  ∃ document : Document, document.Denotes parts ∧ document.Rendered source.toList

/-! ## Evaluation -/

/-- Why parts have no schema. -/
inductive Refusal where
  | integer (value : Int)
  | table (error : TableError)

mutual

/-- The cell of a content; its integers must have 64 bits. -/
def Content.cell : Content → Except Refusal Cell
  | .absent => .ok .absent
  | .bool b => .ok (.bool b)
  | .integer n =>
    if -(twoPow 63 : Int) ≤ n ∧ n < twoPow 63 then .ok (.integer (Int64.ofInt n))
    else .error (.integer n)
  | .text s => .ok (.text s)
  | .list items => (cellsOfContents items).map .list
  | .tuple items => (cellsOfContents items).map .tuple

/-- The cells of contents, from left to right. -/
def cellsOfContents : List Content → Except Refusal (List Cell)
  | [] => .ok []
  | content :: contents => do
    let cell ← content.cell
    let cells ← cellsOfContents contents
    return cell :: cells

end

/-- A single statement of a schema. -/
inductive Clause where
  | option (key : String) (value : Content)
  | columns (names : List String)
  | row (contents : List Content)

/-- The clauses of a part in order. -/
def Part.clauses : Part → List Clause
  | .options entries => entries.map fun entry => .option entry.1 entry.2
  | .table columns rows => .columns columns :: rows.map .row

/-- Takes one clause. -/
def Clause.take (d : Declared) : Clause → Except Refusal Declared
  | .option key value => do
    let cell ← value.cell
    return { d with options := d.options ++ [(key, cell)] }
  | .columns names => do
    let table ← (d.table.declareColumns names).mapError .table
    return { d with table }
  | .row contents => do
    let cells ← cellsOfContents contents
    let table ← (d.table.declareRow cells).mapError .table
    return { d with table }

/-- What clauses declare. -/
def evaluate (clauses : List Clause) : Except Refusal SchemaSource := do
  let d ← clauses.foldlM Clause.take {}
  return ⟨d.table.messages, d.options⟩

/-- Whether a clause is an option. -/
def Clause.isOption : Clause → Bool
  | .option .. => true
  | _ => false

/-- The same options in order and the same tables in order, however they are mixed. -/
def SameClauses (clauses others : List Clause) : Prop :=
  clauses.filter Clause.isOption = others.filter Clause.isOption ∧
    clauses.filter (!·.isOption) = others.filter (!·.isOption)

/-- What is wrong with an integer that does not fit. -/
def faultOf (n : Int) : IntegerFault :=
  if twoPow 127 ≤ n.natAbs then .tooLarge else .outOfRange

/-- The second outcome is the first one, with a spelling of the integer that does not fit. -/
inductive Answers {α : Type} : Except Refusal α → Except SourceError α → Prop
  | ok (x : α) : Answers (.ok x) (.ok x)
  | integer {literal : String} {n : Int} :
    SpellsInteger literal.toList n →
      Answers (.error (.integer n)) (.error (.badInteger literal (faultOf n)))
  | table (error : TableError) : Answers (.error (.table error)) (.error (.table error))

end MessageSchema.Source
