import MessageSchema.Memory.Layout

/-!
# Numbers in memory

Memory is a list of bytes. `encode` and `decode` turn numbers into bytes and back in either byte
order; `overwrite` replaces a range of memory, and `readNumber?` reads one that lies inside it.
-/

namespace MessageSchema.Memory

/-- A piece of memory. -/
abbrev Bytes := List UInt8

/-- The lowest `size` bytes of a number, the lowest first. -/
def lowBytes : (size : Nat) → (n : Nat) → Bytes
  | 0, _ => []
  | size + 1, n => UInt8.ofNat (n % 256) :: lowBytes size (n / 256)

/-- The number whose bytes are given, the lowest first. -/
def numberOfLowBytes : Bytes → Nat
  | [] => 0
  | b :: bs => b.toNat + 256 * numberOfLowBytes bs

namespace ByteOrder

/-- The lowest `size` bytes of a number in memory. -/
def encode (order : ByteOrder) (size n : Nat) : Bytes :=
  match order with
  | .little => lowBytes size n
  | .big => (lowBytes size n).reverse

/-- The number that bytes in memory stand for. -/
def decode (order : ByteOrder) (bytes : Bytes) : Nat :=
  match order with
  | .little => numberOfLowBytes bytes
  | .big => numberOfLowBytes bytes.reverse

end ByteOrder

/-- The memory with `data` in place of what was at `offset`. -/
def overwrite (memory : Bytes) (offset : Nat) (data : Bytes) : Bytes :=
  memory.take offset ++ data ++ memory.drop (offset + data.length)

/-- The memory from `offset` on, `size` bytes long. -/
def slice (memory : Bytes) (offset size : Nat) : Bytes :=
  (memory.drop offset).take size

/-- The number of `size` bytes at `offset`, if they lie inside the memory. -/
def readNumber? (order : ByteOrder) (memory : Bytes) (offset size : Nat) : Option Nat :=
  if offset + size ≤ memory.length then some (order.decode (slice memory offset size)) else none

end MessageSchema.Memory
