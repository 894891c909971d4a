import MessageSchema.Memory.Binary
import MessageSchema.Memory.Scalar

/-!
# Values

A `Value` is what is stored in a field or a tail element: an integer of a fixed width, a truth
value, or a floating-point number by its encoding. `toBits?` gives the bits of a value in a scalar
that can hold it; `ofBits` is the value that bits stand for.
-/

namespace MessageSchema.Memory

/-- The width of an integer. -/
inductive Width where
  | w8
  | w16
  | w32
  | w64
deriving DecidableEq, Repr

/-- The number of bits. -/
def Width.bits : Width → Nat
  | .w8 => 8
  | .w16 => 16
  | .w32 => 32
  | .w64 => 64

/-- An integer type of a fixed width. -/
structure IntegerType where
  signed : Bool
  width : Width
deriving DecidableEq, Repr

namespace IntegerType

/-- The least number of the type. -/
def least (t : IntegerType) : Int :=
  if t.signed then -(twoPow (t.width.bits - 1) : Int) else 0

/-- The greatest number of the type. -/
def greatest (t : IntegerType) : Int :=
  if t.signed then twoPow (t.width.bits - 1) - 1 else twoPow t.width.bits - 1

/-- Whether a number is one of the type. -/
def Holds (t : IntegerType) (n : Int) : Prop :=
  t.least ≤ n ∧ n ≤ t.greatest

instance (t : IntegerType) (n : Int) : Decidable (t.Holds n) :=
  inferInstanceAs (Decidable (_ ∧ _))

/-- The number of the type that agrees with `n` in the low bits. -/
def wrap (t : IntegerType) (n : Nat) : Int :=
  if t.signed then Int.bmod n (twoPow t.width.bits) else n % twoPow t.width.bits

theorem holds_wrap (t : IntegerType) (n : Nat) : t.Holds (t.wrap n) := by
  obtain ⟨signed, width⟩ := t
  cases signed <;> cases width <;>
    simp [Holds, least, greatest, wrap, Width.bits, Int.bmod, twoPow] <;> omega

end IntegerType

/-- A value of a field or of a tail element. -/
inductive Value where
  | integer (type : IntegerType) (number : Int) (holds : type.Holds number)
  | bool (value : Bool)
  | single (bits : UInt32)
  | double (bits : UInt64)
deriving DecidableEq

namespace Value

/-- The value of an integer type for a number that the type holds. -/
def ofNumber? (type : IntegerType) (number : Int) : Option Value :=
  if h : type.Holds number then some (.integer type number h) else none

/-- The value of an integer type in the low bits of a number. -/
def ofLowBits (type : IntegerType) (bits : Nat) : Value :=
  .integer type (type.wrap bits) (type.holds_wrap bits)

/-- The number of an integer; a truth value counts as 0 or 1. -/
def number? : Value → Option Int
  | .integer _ number _ => some number
  | .bool b => some (if b then 1 else 0)
  | .single _ => none
  | .double _ => none

/-- The number of a value, if it is one of 64 bits with a sign. -/
def signedNumber? (v : Value) : Option Int :=
  v.number?.filter fun n : Int => n < twoPow 63

/-- The number of a value, if it has no sign. -/
def unsignedNumber? (v : Value) : Option Nat :=
  (v.number?.filter fun n : Int => 0 ≤ n).map Int.toNat

/-- The encoding of a value as a `double`. An integer is rounded, and must be one of 64 bits with a
sign. -/
def doubleBits? : Value → Option Nat
  | .single bits => some (BinaryFormat.single.convert .double bits.toNat)
  | .double bits => some bits.toNat
  | v => v.signedNumber?.map BinaryFormat.double.ofInt

/-- The bits of a value in a scalar, if the scalar can hold it. A number is rounded to a `float` by
way of `double`. -/
def toBits? (v : Value) (s : Scalar) : Option Nat :=
  let width := 8 * s.size
  match s.kind with
  | .signed =>
    let bound : Int := twoPow (width - 1)
    (v.signedNumber?.filter fun n : Int => -bound ≤ n && n < bound).map
      fun n : Int => (n % (twoPow width : Int)).toNat
  | .unsigned | .pointer => v.unsignedNumber?.filter fun n => n < twoPow width
  | .bool => v.unsignedNumber?.filter fun n => n ≤ 1
  | .float =>
    match s.size with
    | 4 => v.doubleBits?.map (BinaryFormat.double.convert .single)
    | 8 => v.doubleBits?
    | _ => none

/-- The width of an integer scalar; one of an odd size is read as one of 64 bits. -/
def widthOfSize : Nat → Width
  | 1 => .w8
  | 2 => .w16
  | 4 => .w32
  | _ => .w64

/-- The value that the bits of a scalar stand for. -/
def ofBits (bits : Nat) (s : Scalar) : Value :=
  match s.kind with
  | .signed => .ofLowBits ⟨true, widthOfSize s.size⟩ bits
  | .unsigned | .pointer => .ofLowBits ⟨false, widthOfSize s.size⟩ bits
  | .bool => .bool (bits != 0)
  | .float => if s.size = 4 then .single (.ofNat bits) else .double (.ofNat bits)

end Value

end MessageSchema.Memory
