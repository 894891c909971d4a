import MessageSchema.Memory.Bytes
import MessageSchema.Memory.Value
import MessageSchema.Settings

/-!
# Building records

`constructInPlace` builds a record in memory that the caller has; `create` asks an allocator for the
memory. Both first encode all values, so a value that does not fit is found before any memory is
requested or touched.
-/

namespace MessageSchema.Memory

/-- An allocator's report that it cannot give `size` bytes. -/
structure AllocationFailure where
  code : Nat
  size : Nat
deriving DecidableEq, Repr

/-- The answer to a request for memory: memory, success but no memory, or a failure. -/
abbrev AllocationAnswer := Except AllocationFailure (Option Bytes)

/-- Answers a request for a number of bytes. -/
abbrev Allocator := Nat → AllocationAnswer

/-- The allocator that always gives zeroed memory. -/
def zeroAllocator : Allocator :=
  fun size => .ok (some (List.replicate size 0))

/-- Why a record is not built. -/
inductive RecordError where
  | allocation (failure : AllocationFailure)
  | noMemory
  | bufferTooSmall (needed length : Nat)
  | fieldCount (message : String) (expected found : Nat)
  | valueOutOfRange (message member type : String)
  | unexpectedTail (message : String)
  | sizeOverflow
deriving DecidableEq, Repr

/-- The wording of a record error. -/
def RecordError.message : RecordError → String
  | .allocation f =>
    "allocation of " ++ toString f.size ++ " bytes failed (code " ++ toString f.code ++ ")"
  | .noMemory => "allocator reported success but returned no memory"
  | .bufferTooSmall needed length =>
    "buffer of " ++ toString length ++ " bytes is too small for a " ++ toString needed ++
      "-byte record"
  | .fieldCount m expected found =>
    m ++ ": expected " ++ toString expected ++ " field values, got " ++ toString found
  | .valueOutOfRange m member type =>
    m ++ ": value for `" ++ member ++ "` does not fit `" ++ type ++ "`"
  | .unexpectedTail m => m ++ " has no variable tail"
  | .sizeOverflow => "record size overflows"

/-- The values of a record as bits, its size, and what its size member holds. -/
structure EncodedRecord where
  fields : List Nat
  tail : List Nat
  size : Nat
  storedSize : Nat
deriving DecidableEq, Repr

namespace RecordLayout

/-- The bits of the value of a member. -/
def encodeMember (r : RecordLayout) (m : MemberLayout) (v : Value) : Except RecordError Nat :=
  match v.toBits? m.scalar with
  | some bits => .ok bits
  | none => .error (.valueOutOfRange r.name m.name m.type)

/-- The bits of the values of the tail; a record without a tail takes none. -/
def encodeTail (r : RecordLayout) (tail : List Value) : Except RecordError (List Nat) :=
  match r.tail with
  | some member => tail.mapM (r.encodeMember member)
  | none => if tail.isEmpty then .ok [] else .error (.unexpectedTail r.name)

/-- What the size member of a record of `size` bytes with `count` tail elements holds. -/
def storedSize (r : RecordLayout) (meaning : SizeMeaning) (size count : Nat) : Nat :=
  match meaning, r.tail with
  | .legacy, some _ => r.structuralSize + count
  | _, _ => size

/-- The values of a record as bits. -/
def encode (r : RecordLayout) (fields tail : List Value) (meaning : SizeMeaning) :
    Except RecordError EncodedRecord :=
  if fields.length ≠ r.fields.length then
    .error (.fieldCount r.name r.fields.length fields.length)
  else do
    let fieldBits ← (r.fields.zip fields).mapM fun (m, v) => r.encodeMember m v
    let tailBits ← r.encodeTail tail
    match r.recordSize? tailBits.length with
    | none => .error .sizeOverflow
    | some size => return ⟨fieldBits, tailBits, size, r.storedSize meaning size tailBits.length⟩

end RecordLayout

namespace ProtocolLayout

/-- Writes the bits of members to their places. -/
def writeMembers (l : ProtocolLayout) (memory : Bytes) (members : List (MemberLayout × Nat)) :
    Bytes :=
  members.foldl (fun memory (m, bits) =>
    overwrite memory m.offset (l.order.encode m.scalar.size bits)) memory

/-- Writes the bits of tail elements one after the other, the first at `offset`. -/
def writeElements (l : ProtocolLayout) (memory : Bytes) (offset size : Nat) : List Nat → Bytes
  | [] => memory
  | bits :: rest =>
    l.writeElements (overwrite memory offset (l.order.encode size bits)) (offset + size) size rest

end ProtocolLayout

/-- What works on memory in place: it may fail, and what it has written by then stays. -/
abbrev InPlace (α : Type) :=
  ExceptT RecordError (StateM Bytes) α

/-- The result of an operation on memory, and what the memory is then. -/
def InPlace.outcome {α : Type} (operation : InPlace α) (memory : Bytes) :
    Except RecordError α × Bytes :=
  operation.run.run memory

/-- The memory after an operation in place, if it did not fail. -/
def InPlace.memoryAfter (operation : InPlace Unit) (memory : Bytes) : Except RecordError Bytes :=
  match operation.outcome memory with
  | (.ok (), after) => .ok after
  | (.error e, _) => .error e

/-- The bits of a number in a scalar of the envelope. -/
def numberBits (type : IntegerType) (number : Int) (s : Scalar) : Except RecordError Nat :=
  match (Value.ofNumber? type number).bind (·.toBits? s) with
  | some bits => .ok bits
  | none => .error .sizeOverflow

namespace ProtocolLayout

/-- The bits of the discriminant and of the size of a record. -/
def envelopeBits (l : ProtocolLayout) (r : RecordLayout) (storedSize : Nat) :
    Except RecordError (Nat × Nat) := do
  let tagBits ← numberBits ⟨true, .w64⟩ r.discriminant.toInt l.envelope.tag
  let sizeBits ← numberBits ⟨false, .w64⟩ storedSize l.envelope.size
  return (tagBits, sizeBits)

/-- Writes an encoded record in place. -/
def writeRecord (l : ProtocolLayout) (r : RecordLayout) (e : EncodedRecord) : InPlace Unit := do
  let envelope := l.envelope
  let length := (← get).length
  if length < e.size then throw (.bufferTooSmall e.size length)
  let (tagBits, sizeBits) ← ofExcept (l.envelopeBits r e.storedSize)
  modify (overwrite · envelope.tagOffset (l.order.encode envelope.tag.size tagBits))
  modify (overwrite · envelope.sizeOffset (l.order.encode envelope.size.size sizeBits))
  modify (l.writeMembers · (r.fields.zip e.fields))
  match r.tail with
  | none => return
  | some tail => modify (l.writeElements · tail.offset tail.scalar.size e.tail)

/-- Builds a record in place. -/
def constructInPlace (l : ProtocolLayout) (r : RecordLayout) (fields tail : List Value)
    (meaning : SizeMeaning) : InPlace Unit := do
  let encoded ← ofExcept (r.encode fields tail meaning)
  l.writeRecord r encoded

/-- Builds a record in the given memory. -/
def construct (l : ProtocolLayout) (r : RecordLayout) (fields tail : List Value)
    (meaning : SizeMeaning) (memory : Bytes) : Except RecordError Bytes :=
  (l.constructInPlace r fields tail meaning).memoryAfter memory

end ProtocolLayout

/-- A record in memory, seen through what all records begin with. -/
structure Envelope where
  bytes : Bytes
  layout : EnvelopeLayout
  order : ByteOrder
deriving DecidableEq, Repr

/-- The memory that an allocator has answered with. -/
def memoryOf : AllocationAnswer → Except RecordError Bytes
  | .error failure => .error (.allocation failure)
  | .ok none => .error .noMemory
  | .ok (some memory) => .ok memory

namespace ProtocolLayout

/-- Builds a record in memory that is asked for with `allocate`, which may have effects. -/
def createWith {m : Type → Type} [Monad m] (l : ProtocolLayout)
    (allocate : Nat → m AllocationAnswer) (r : RecordLayout) (fields tail : List Value)
    (meaning : SizeMeaning) : ExceptT RecordError m Envelope := do
  let encoded ← ofExcept (r.encode fields tail meaning)
  let memory ← ofExcept (memoryOf (← allocate encoded.size))
  let bytes ← ofExcept ((l.writeRecord r encoded).memoryAfter memory)
  return ⟨bytes, l.envelope, l.order⟩

/-- Builds a record in memory from an allocator. -/
def create (l : ProtocolLayout) (allocator : Allocator) (r : RecordLayout)
    (fields tail : List Value) (meaning : SizeMeaning) : Except RecordError Envelope :=
  (l.createWith (fun size => (pure (allocator size) : Id _)) r fields tail meaning).run.run

end ProtocolLayout

end MessageSchema.Memory
