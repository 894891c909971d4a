import MessageSchema.Column
import MessageSchema.Message.Basic

/-!
# Looking a message up by column

`Message.column` gives back what a row declared in a column, under any of the column's names. A
description may be filled in after the table is read; until then its lookup fails.
-/

namespace MessageSchema

/-- Why a column of a message has no cell. -/
inductive LookupError where
  | notYetComputed (message column : String)
  | unknownColumn (message column : String)
deriving DecidableEq, Repr

/-- The wording of a lookup error. -/
def LookupError.message : LookupError → String
  | .notYetComputed m c => "message `" ++ m ++ "`: `" ++ c ++ "` not yet computed"
  | .unknownColumn m c => "message `" ++ m ++ "`: no column `" ++ c ++ "`"

namespace Message

/-- The description, once there is one. -/
def readDescription (m : Message) : Except LookupError String :=
  match m.description with
  | some text => .ok text
  | none => .error (.notYetComputed m.name Column.description.canonicalName)

/-- The cell of a column, as a table declares it. -/
def column (m : Message) (name : String) : Except LookupError Cell :=
  match Column.ofName name with
  | .name => .ok (.text m.name)
  | .value => .ok (.ofInteger? m.explicitValue)
  | .description => m.readDescription.map .text
  | .shortName => .ok (.text m.shortName)
  | .fields => .ok (.list (m.fields.map (.text ·.declaration)))
  | .tail =>
    match m.tail with
    | some t => .ok (.tuple [.text t.elementType, .text t.name])
    | none => .ok .absent
  | .extra label =>
    match m.extras.get? label with
    | some cell => .ok cell
    | none => .error (.unknownColumn m.name label)

end Message

end MessageSchema
