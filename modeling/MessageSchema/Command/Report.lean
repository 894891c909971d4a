import MessageSchema.Compile
import MessageSchema.Memory.Layout

/-!
# What the program prints

A description of a protocol has one line for each message: its name, its record, the discriminant,
the size of a record without its tail, the size of a tail element, and what the message is for.

A `Failure` says what was going on and why that failed, from the outermost cause to the innermost.
Its message lists the causes, numbered if there are several, with the lines of each indented.
-/

namespace MessageSchema.Command

open Memory Text

/-- A line of the description of a protocol. -/
def describeLine (name record tag size element description : String) : String :=
  padRight 24 name ++ " " ++ padRight 24 record ++ " " ++ padLeft 6 tag ++ " " ++
    padLeft 6 size ++ " " ++ padLeft 6 element ++ "  " ++ description ++ "\n"

/-- The line of one message. -/
def describeMessage (s : Settings) (m : Message) (r : RecordLayout) : String :=
  describeLine m.name (s.recordName m.shortName) (toString r.discriminant.toInt)
    (toString r.structuralSize) ((r.elementSize?.map toString).getD "-")
    (m.description.getD "-")

/-- The description of a protocol. -/
def describeProtocol (loaded : LoadedSchema) (layout : ProtocolLayout) : String :=
  String.join
    (describeLine "name" "record" "tag" "size" "elem" "description" ::
      List.zipWith (describeMessage loaded.settings) loaded.protocol.messages layout.records)

/-- A failure: what was going on, and the causes of it, from the outermost on. -/
structure Failure where
  text : String
  causes : List String := []
deriving DecidableEq, Repr

namespace Failure

/-- A failure with one cause. -/
def during (text cause : String) : Failure :=
  ⟨text, [cause]⟩

/-- A cause behind `lead`; every line after the first is indented, an empty one too. -/
def indentCause (lead indent : String) (cause : String) : String :=
  match (cause.toList.splitOn '\n').map String.ofList with
  | [] => lead
  | first :: rest => "\n".intercalate ((lead ++ first) :: rest.map (indent ++ ·))

/-- The causes as they are listed; several are numbered. -/
def listCauses : List String → List String
  | [cause] => [indentCause "    " "    " cause]
  | causes => causes.mapIdx fun i cause =>
    indentCause (Text.padLeft 5 (toString i) ++ ": ") "       " cause

/-- The message of a failure. -/
def message (f : Failure) : String :=
  if f.causes.isEmpty then "Error: " ++ f.text ++ "\n"
  else
    "Error: " ++ f.text ++ "\n\nCaused by:\n" ++ "\n".intercalate (listCauses f.causes) ++ "\n"

end Failure

end MessageSchema.Command
