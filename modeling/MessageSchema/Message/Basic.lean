import MessageSchema.Message.Extras
import MessageSchema.Text

/-!
# Messages

A `Message` is one kind of message of a protocol: its name, the short name its generated symbols
are built from, an optional explicit discriminant, an optional description, the fixed fields, the
tail if it has one, and the cells of the columns without a meaning of their own.

A `Field` is one fixed member of a record: its C type, its name, and the declaration that is
written into the generated C. A `Tail` is the variable-length array a record may end with.
`Field.ofDeclaration` splits a declaration such as `const char *path`: the name is the longest run
of word characters at its end, the type is what stands before it.
-/

namespace MessageSchema

open Text

/-- A fixed field: `declaration` is written out as it is, `name` is what constructors assign. -/
structure Field where
  type : String
  name : String
  declaration : String
deriving DecidableEq, Repr

/-- Why a text declares no field. -/
inductive DeclarationFault where
  | noName
  | noType
  | nameNotIdentifier
deriving DecidableEq, Repr

/-- The wording of a declaration fault. -/
def DeclarationFault.message : DeclarationFault → String
  | .noName => "declaration must end with a field name"
  | .noType => "missing type"
  | .nameNotIdentifier => "field name is not an identifier"

namespace Field

/-- The field of a type and a name, declared as the two with a space between them. -/
def ofPair (type name : String) : Field :=
  ⟨type, name, type ++ " " ++ name⟩

/-- Reads a C declaration: the trailing word is the name, the text before it the type. -/
def ofDeclaration (text : String) : Except DeclarationFault Field :=
  let declaration := trim text.toList
  let name := (declaration.reverse.takeWhile isWordChar).reverse
  let type := trimEnd (declaration.reverse.dropWhile isWordChar).reverse
  if name.isEmpty then .error .noName
  else if type.isEmpty then .error .noType
  else if !isIdentifierChars name then .error .nameNotIdentifier
  else .ok ⟨String.ofList type, String.ofList name, String.ofList declaration⟩

end Field

/-- A trailing array of `elementType`, as long as the sender chooses. -/
structure Tail where
  elementType : String
  name : String
deriving DecidableEq, Repr

/-- The parameter of the generated functions that holds the number of tail elements. -/
def Tail.countParameter (t : Tail) : String :=
  t.name ++ "_count"

/-- One message kind of a protocol. -/
structure Message where
  name : String
  shortName : String
  explicitValue : Option Int64 := none
  description : Option String := none
  fields : List Field := []
  tail : Option Tail := none
  extras : Extras := .empty

namespace Message

/-- Whether records of this kind end with an array. -/
def isVariable (m : Message) : Bool :=
  m.tail.isSome

/-- The message with its description filled in. -/
def setDescription (m : Message) (text : String) : Message :=
  { m with description := some text }

/-- The names of the fixed fields and then of the tail. -/
def memberNames (m : Message) : List String :=
  m.fields.map (·.name) ++ (m.tail.map (·.name)).toList

/-- The types of the fixed fields and then of the tail's elements. -/
def memberTypes (m : Message) : List String :=
  m.fields.map (·.type) ++ (m.tail.map (·.elementType)).toList

end Message

end MessageSchema
