/-!
# Cells

A `Cell` is one value of a schema table or of an option: nothing, a truth value, a 64-bit integer,
a text, or a list or tuple of cells. `Cell.kind` is the kind that error messages name.
-/

namespace MessageSchema

/-- What a cell is, without its content. -/
inductive CellKind where
  | absent
  | bool
  | integer
  | text
  | list
  | tuple
deriving DecidableEq, Repr

/-- The word for a kind in an error message. -/
def CellKind.name : CellKind → String
  | .absent => "none"
  | .bool => "bool"
  | .integer => "integer"
  | .text => "string"
  | .list => "list"
  | .tuple => "tuple"

/-- A value supplied in a table row or to an option. -/
inductive Cell where
  | absent
  | bool (value : Bool)
  | integer (value : Int64)
  | text (value : String)
  | list (items : List Cell)
  | tuple (items : List Cell)

namespace Cell

/-- The kind of a cell. -/
def kind : Cell → CellKind
  | absent => .absent
  | bool _ => .bool
  | integer _ => .integer
  | text _ => .text
  | list _ => .list
  | tuple _ => .tuple

/-- Whether the cell holds nothing. -/
def isAbsent : Cell → Bool
  | absent => true
  | _ => false

/-- The text of a text cell. -/
def text? : Cell → Option String
  | text s => some s
  | _ => none

/-- The number of an integer cell. -/
def integer? : Cell → Option Int64
  | integer n => some n
  | _ => none

/-- The truth value of a truth value cell. -/
def bool? : Cell → Option Bool
  | bool b => some b
  | _ => none

/-- The elements of a list or of a tuple. -/
def items? : Cell → Option (List Cell)
  | list items => some items
  | tuple items => some items
  | _ => none

/-- The texts of a list or tuple that holds nothing but texts. -/
def texts? (c : Cell) : Option (List String) :=
  c.items?.bind (·.mapM text?)

/-- A text, or an absent cell. -/
def ofText? : Option String → Cell
  | some s => text s
  | none => absent

/-- A number, or an absent cell. -/
def ofInteger? : Option Int64 → Cell
  | some n => integer n
  | none => absent

end Cell

end MessageSchema
