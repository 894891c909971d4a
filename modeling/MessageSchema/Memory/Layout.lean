import MessageSchema.Memory.Binary
import MessageSchema.Memory.Scalar
import MessageSchema.Protocol

/-!
# Record layouts

Where a C compiler places the members of the generated records. Every record begins with the
envelope: the discriminant and the size. Each fixed field follows at the next multiple of its
alignment, then the tail, and the size of a record without its tail is a multiple of the largest
alignment.
-/

namespace MessageSchema.Memory

/-- The first multiple of `align` that is not below `offset`. -/
def alignUp (offset align : Nat) : Nat :=
  (offset + align - 1) / align * align

/-- Where the discriminant and the size of every record lie. -/
structure EnvelopeLayout where
  tag : Scalar
  tagOffset : Nat
  size : Scalar
  sizeOffset : Nat
  headerSize : Nat
  structuralSize : Nat
deriving DecidableEq, Repr

/-- The envelope on a data model. -/
def EnvelopeLayout.ofModel (m : DataModel) : EnvelopeLayout :=
  let tag := m.tag
  let size := m.sizeType
  let sizeOffset := alignUp tag.size size.align
  let headerSize := sizeOffset + size.size
  { tag, tagOffset := 0, size, sizeOffset, headerSize
    structuralSize := alignUp headerSize (max tag.align size.align) }

/-- The alignment of the envelope. -/
def EnvelopeLayout.align (e : EnvelopeLayout) : Nat :=
  max e.tag.align e.size.align

/-- A member in its record: a fixed field, or the tail with its element type. -/
structure MemberLayout where
  name : String
  type : String
  scalar : Scalar
  offset : Nat
deriving DecidableEq, Repr

/-- The layout of the records of one message. -/
structure RecordLayout where
  name : String
  shortName : String
  discriminant : Int64
  fields : List MemberLayout
  tail : Option MemberLayout
  structuralSize : Nat
  align : Nat
deriving DecidableEq, Repr

/-- Why a record has no layout. -/
inductive LayoutError where
  | unsupportedType (message member type : String)
deriving DecidableEq, Repr

/-- The wording of a layout error. -/
def LayoutError.message : LayoutError → String
  | .unsupportedType m f t => "message `" ++ m ++ "`: field `" ++ f ++ "` has unsupported type `" ++
      t ++ "`"

/-- Byte counts that a machine word of 64 bits can hold. -/
def sizeLimit : Nat :=
  twoPow 64

namespace RecordLayout

/-- The size of a record with `count` tail elements, if it can be counted in 64 bits; a record
without a tail has no elements. -/
def recordSize? (r : RecordLayout) (count : Nat) : Option Nat :=
  match r.tail with
  | some tail =>
    let size := count * tail.scalar.size + r.structuralSize
    if size < sizeLimit then some size else none
  | none => if count = 0 then some r.structuralSize else none

/-- The size of a tail element. -/
def elementSize? (r : RecordLayout) : Option Nat :=
  r.tail.map (·.scalar.size)

/-- The fixed field of a name. -/
def field? (r : RecordLayout) (name : String) : Option MemberLayout :=
  r.fields.find? (·.name == name)

end RecordLayout

/-- Members being placed: those that are, the end of the last one, and the largest alignment. -/
structure Placement where
  members : List MemberLayout
  offset : Nat
  align : Nat
deriving DecidableEq, Repr

namespace Placement

/-- Where a member of the given scalar type goes. -/
def nextOffset (p : Placement) (scalar : Scalar) : Nat :=
  alignUp p.offset scalar.align

/-- Looks a member's type up. -/
def scalarOf (m : DataModel) (message name type : String) : Except LayoutError Scalar :=
  match m.scalar? type with
  | some scalar => .ok scalar
  | none => .error (.unsupportedType message name type)

/-- Places a fixed field. -/
def addField (m : DataModel) (message : String) (p : Placement) (f : Field) :
    Except LayoutError Placement := do
  let scalar ← scalarOf m message f.name f.type
  let offset := p.nextOffset scalar
  return ⟨p.members ++ [⟨f.name, f.type, scalar, offset⟩], offset + scalar.size,
    max p.align scalar.align⟩

end Placement

/-- Places the members of a record. -/
def RecordLayout.ofTagged (m : DataModel) (e : TaggedMessage) :
    Except LayoutError RecordLayout := do
  let message := e.message
  let envelope := EnvelopeLayout.ofModel m
  let placed ← message.fields.foldlM (Placement.addField m message.name)
    ⟨[], envelope.headerSize, envelope.align⟩
  match message.tail with
  | none =>
    return ⟨message.name, message.shortName, e.discriminant, placed.members, none,
      alignUp placed.offset placed.align, placed.align⟩
  | some tail =>
    let scalar ← Placement.scalarOf m message.name tail.name tail.elementType
    let align := max placed.align scalar.align
    let offset := placed.nextOffset scalar
    return ⟨message.name, message.shortName, e.discriminant, placed.members,
      some ⟨tail.name, tail.elementType, scalar, offset⟩, alignUp offset align, align⟩

/-- The order of the bytes of a number in memory. -/
inductive ByteOrder where
  | little
  | big
deriving DecidableEq, Repr

/-- The layouts of all records of a protocol. -/
structure ProtocolLayout where
  model : DataModel
  order : ByteOrder
  envelope : EnvelopeLayout
  records : List RecordLayout
deriving DecidableEq, Repr

namespace ProtocolLayout

/-- Lays the records of a protocol out; the first member without a scalar type decides the
error. -/
def compute (p : Protocol) (m : DataModel) (order : ByteOrder) :
    Except LayoutError ProtocolLayout := do
  let records ← p.entries.mapM (RecordLayout.ofTagged m)
  return ⟨m, order, .ofModel m, records⟩

/-- The record of a message name. -/
def record? (l : ProtocolLayout) (name : String) : Option RecordLayout :=
  l.records.find? (·.name == name)

/-- The first record with a discriminant. -/
def byTag? (l : ProtocolLayout) (tag : Int64) : Option RecordLayout :=
  l.records.find? (·.discriminant == tag)

end ProtocolLayout

end MessageSchema.Memory
