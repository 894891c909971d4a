import MessageSchema.Memory.Record

/-!
# Views of records

An `Envelope` is memory that holds a record of some kind. Its discriminant says of which; as a
`RecordView` of that kind its fields and its tail can be read. The memory need not be a record that
was built here: what it is too short for is not read.
-/

namespace MessageSchema.Memory

namespace Envelope

/-- Memory as an envelope, if it is long enough for one. -/
def ofBytes? (l : ProtocolLayout) (bytes : Bytes) : Option Envelope :=
  if l.envelope.headerSize ≤ bytes.length then some ⟨bytes, l.envelope, l.order⟩ else none

/-- The number at an offset of a record. -/
def numberAt (e : Envelope) (offset size : Nat) : Nat :=
  e.order.decode (slice e.bytes offset size)

/-- The discriminant of a record. -/
def tag (e : Envelope) : Int64 :=
  let scalar := e.layout.tag
  let value := Value.ofBits (e.numberAt e.layout.tagOffset scalar.size) scalar
  Int64.ofInt (value.signedNumber?.getD 0)

/-- What the size member of a record holds. -/
def sizeField (e : Envelope) : Nat :=
  e.numberAt e.layout.sizeOffset e.layout.size.size

end Envelope

/-- A record known to be of one kind. -/
structure RecordView where
  envelope : Envelope
  record : RecordLayout
deriving DecidableEq, Repr

/-- An envelope as a record of one kind, if its discriminant is the one of that kind. -/
def Envelope.downcast? (e : Envelope) (r : RecordLayout) : Option RecordView :=
  if e.tag = r.discriminant then some ⟨e, r⟩ else none

namespace RecordView

/-- The value of a scalar at an offset, if it lies inside the memory. -/
def read? (v : RecordView) (offset : Nat) (s : Scalar) : Option Value :=
  (readNumber? v.envelope.order v.envelope.bytes offset s.size).map (Value.ofBits · s)

/-- The value of a fixed field. -/
def field? (v : RecordView) (name : String) : Option Value :=
  (v.record.field? name).bind fun f => v.read? f.offset f.scalar

/-- The number of tail elements that the size member tells of. -/
def tailCount (v : RecordView) (meaning : SizeMeaning) : Nat :=
  match v.record.tail with
  | none => 0
  | some tail =>
    let beyond := v.envelope.sizeField - v.record.structuralSize
    match meaning with
    | .bytes => beyond / tail.scalar.size
    | .legacy => beyond

/-- At most `count` elements, the first at `offset`, up to the first that is not in memory. -/
def elements (v : RecordView) (s : Scalar) : (offset count : Nat) → List Value
  | _, 0 => []
  | offset, count + 1 =>
    match v.read? offset s with
    | none => []
    | some value => value :: elements v s (offset + s.size) count

/-- The tail elements that are in memory. -/
def tail (v : RecordView) (meaning : SizeMeaning) : List Value :=
  match v.record.tail with
  | none => []
  | some tail => v.elements tail.scalar tail.offset (v.tailCount meaning)

end RecordView

end MessageSchema.Memory
