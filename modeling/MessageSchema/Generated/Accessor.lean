import MessageSchema.Generated.Function
import MessageSchema.Settings

/-!
# The functions of a message

Four functions belong to the record of a message. `get` casts an envelope to the record if the tag
fits, `size` is the number of bytes of a record, `construct` fills a record in, and `create`
allocates a record and fills it in.
-/

namespace MessageSchema.Generated

/-- The functions that belong to a record. -/
inductive Accessor where
  | get
  | size
  | construct
  | create
deriving DecidableEq, Repr

/-- The accessors in the order in which they are written. -/
def Accessor.all : List Accessor :=
  [.get, .size, .construct, .create]

/-- What the name of an accessor ends in. -/
def Accessor.ending : Accessor → String
  | .get => "get"
  | .size => "size"
  | .construct => "ctor"
  | .create => "new"

/-- A message with the symbols that the generated C has for it. -/
structure Target where
  message : Message
  discriminant : Int64
  tag : String
  record : String

namespace Target

/-- The symbols of a message under the given settings. -/
def ofTagged (s : Settings) (e : TaggedMessage) : Target :=
  ⟨e.message, e.discriminant, s.tagConstant e.message.name, s.recordName e.message.shortName⟩

/-- The name of one of the message's functions. -/
def accessorName (t : Target) (a : Accessor) : String :=
  t.record ++ "_" ++ a.ending

/-- The parameters for the members of the record. -/
def memberParameters (t : Target) : List Parameter :=
  t.message.fields.map (fun f => ⟨f.declaration, f.name⟩) ++
    match t.message.tail with
    | none => []
    | some tail =>
      [⟨tail.elementType ++ " * " ++ tail.name, tail.name⟩,
        ⟨"size_t " ++ tail.countParameter, tail.countParameter⟩]

/-- The arguments that a constructor is called with for the members of the record. -/
def memberArguments (t : Target) : List String :=
  t.message.fields.map (·.name) ++
    match t.message.tail with
    | none => []
    | some tail => [tail.name, tail.countParameter]

/-- The size of a record with as many tail elements as the size function's parameter says. -/
def sizeBody (t : Target) : SizeExpr :=
  match t.message.tail with
  | none => .sizeof t.record
  | some tail =>
    .sum (.sizeof t.record) (.group (.product (.parameter "count") (.sizeof tail.elementType)))

/-- What the constructor stores in the size member. -/
def storedSize (t : Target) (meaning : SizeMeaning) : SizeExpr :=
  match t.message.tail, meaning with
  | none, _ => .sizeof t.record
  | some tail, .bytes => .call (t.accessorName .size) [tail.countParameter]
  | some tail, .legacy => .sum (.sizeof t.record) (.parameter tail.countParameter)

/-- The number of bytes to ask the allocator for. -/
def requestedSize (t : Target) : SizeExpr :=
  .call (t.accessorName .size) (t.message.tail.map (·.countParameter)).toList

/-- The number of bytes of the tail. -/
def tailLength (tail : Tail) : SizeExpr :=
  .product (.parameter tail.countParameter) (.sizeof tail.elementType)

/-- The tag-checked cast from the envelope. -/
def getFunction (s : Settings) (t : Target) : Function where
  result := t.record ++ " *"
  name := t.accessorName .get
  parameters := [⟨s.envelopeName ++ " * msg", "msg"⟩]
  body := .block [.returnNullUnlessTag t.tag, .returnAs t.record]

/-- The size of a record. -/
def sizeFunction (t : Target) : Function where
  result := "size_t"
  name := t.accessorName .size
  parameters := if t.message.isVariable then [⟨"size_t count", "count"⟩] else []
  body := .line (.returnSize t.sizeBody)

/-- The in-place constructor. -/
def constructFunction (s : Settings) (t : Target) : Function where
  result := "void"
  name := t.accessorName .construct
  parameters := ⟨t.record ++ " * msg", "msg"⟩ :: t.memberParameters
  body := .block
    ([.setTag t.tag, .setSize (t.storedSize s.sizeMeaning)] ++
      t.message.fields.map (.setField ·.name) ++
      (t.message.tail.map fun tail => .moveTail tail.name (tailLength tail)).toList)

/-- The allocating constructor. -/
def createFunction (s : Settings) (t : Target) : Function where
  result := s.resultType
  name := t.accessorName .create
  parameters :=
    ⟨t.record ++ " ** out_msg", "out_msg"⟩ ::
      ⟨s.allocatorType ++ " * allocator", "allocator"⟩ :: t.memberParameters
  body := .block
    [.clearResult, .allocate s.resultType s.allocFunction t.requestedSize,
      .returnUnlessAllocated s.okCode, .returnIfNull s.constructFailed,
      .construct (t.accessorName .construct) t.memberArguments,
      .returnCode s.okCode]

/-- One of the message's functions. -/
def function (s : Settings) (t : Target) : Accessor → Function
  | .get => t.getFunction s
  | .size => t.sizeFunction
  | .construct => t.constructFunction s
  | .create => t.createFunction s

end Target

end MessageSchema.Generated
