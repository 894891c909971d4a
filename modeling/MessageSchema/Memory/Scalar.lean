import MessageSchema.Text

/-!
# Scalar C types

Size and alignment of the scalar C types on two data models. `const` and `volatile` and the
spacing between words say nothing about the layout of a type.
-/

namespace MessageSchema.Memory

/-- What the bits of a scalar mean. -/
inductive ScalarKind where
  | signed
  | unsigned
  | float
  | bool
  | pointer
deriving DecidableEq, Repr

/-- A scalar in memory: its meaning, and its size and alignment in bytes. -/
structure Scalar where
  kind : ScalarKind
  size : Nat
  align : Nat
deriving DecidableEq, Repr

/-- The sizes that C types have on a machine. -/
inductive DataModel where
  /-- `long`, `size_t` and pointers have 8 bytes. -/
  | lp64
  /-- `long`, `size_t` and pointers have 4 bytes, and no scalar is aligned to more. -/
  | ilp32
deriving DecidableEq, Repr

/-- The size of a type: a number of bytes, or that of a machine word. -/
inductive Extent where
  | bytes (n : Nat)
  | word
deriving DecidableEq, Repr

/-- The arithmetic types, each with all its spellings. -/
def arithmeticTypes : List (ScalarKind × Extent × List String) :=
  [(.signed, .bytes 1, ["char", "signed char", "int8_t"]),
    (.unsigned, .bytes 1, ["unsigned char", "uint8_t"]),
    (.bool, .bytes 1, ["bool", "_Bool"]),
    (.signed, .bytes 2, ["short", "short int", "signed short", "int16_t"]),
    (.unsigned, .bytes 2, ["unsigned short", "unsigned short int", "uint16_t"]),
    (.signed, .bytes 4, ["int", "signed", "signed int", "int32_t"]),
    (.unsigned, .bytes 4, ["unsigned", "unsigned int", "uint32_t"]),
    (.signed, .word, ["long", "long int", "signed long", "ssize_t", "ptrdiff_t", "intptr_t"]),
    (.unsigned, .word, ["unsigned long", "unsigned long int", "size_t", "uintptr_t"]),
    (.signed, .bytes 8, ["long long", "long long int", "signed long long", "int64_t"]),
    (.unsigned, .bytes 8, ["unsigned long long", "unsigned long long int", "uint64_t"]),
    (.float, .bytes 4, ["float"]),
    (.float, .bytes 8, ["double"])]

/-- The kind and size of an arithmetic type. -/
def arithmeticType? (spelling : String) : Option (ScalarKind × Extent) :=
  (arithmeticTypes.find? fun (_, _, spellings) => spellings.contains spelling).map
    fun (kind, extent, _) => (kind, extent)

/-- The words of a type that say something about its layout. -/
def typeWords (type : String) : List (List Char) :=
  (Text.words type.toList).filter fun w => w != "const".toList && w != "volatile".toList

/-- A type without qualifiers, with single spaces between its words. -/
def plainType (type : String) : List Char :=
  [' '].intercalate (typeWords type)

namespace DataModel

/-- The size of a machine word: of `long`, `size_t` and pointers. -/
def wordSize : DataModel → Nat
  | lp64 => 8
  | ilp32 => 4

/-- The alignment that no scalar exceeds. -/
def maxAlign : DataModel → Nat
  | lp64 => 8
  | ilp32 => 4

/-- A number of bytes. -/
def extent (m : DataModel) : Extent → Nat
  | .bytes n => n
  | .word => m.wordSize

/-- A scalar type by its spelling. -/
def scalar? (m : DataModel) (type : String) : Option Scalar :=
  let plain := plainType type
  if plain.getLast? = some '*' then some ⟨.pointer, m.wordSize, m.wordSize⟩
  else
    (arithmeticType? (String.ofList plain)).map fun (kind, extent) =>
      ⟨kind, m.extent extent, min (m.extent extent) m.maxAlign⟩

/-- The discriminant type: an enumeration, of the size of `int`. -/
def tag (_ : DataModel) : Scalar :=
  ⟨.signed, 4, 4⟩

/-- The type `size_t`. -/
def sizeType (m : DataModel) : Scalar :=
  ⟨.unsigned, m.wordSize, m.wordSize⟩

end DataModel

end MessageSchema.Memory
