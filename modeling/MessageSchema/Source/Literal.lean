import MessageSchema.Memory.Binary
import MessageSchema.Source.Lexeme

/-!
# Values of literals

The value of an integer literal, and the text that a text literal stands for. Integers have 64
bits; a literal beyond them is out of range, and one whose magnitude exceeds 127 bits is reported
as too large, whatever its sign.
-/

namespace MessageSchema.Source

/-- Why an integer literal has no value. -/
inductive IntegerFault where
  | tooLarge
  | outOfRange
deriving DecidableEq, Repr

/-- The value of a digit of base sixteen or less. -/
def digitValue (c : Char) : Nat :=
  if c.isDigit then c.toNat - '0'.toNat
  else if 'a' ≤ c && c ≤ 'f' then c.toNat - 'a'.toNat + 10
  else c.toNat - 'A'.toNat + 10

/-- The number that digits stand for. -/
def digitsValue (base : Nat) (digits : List Char) : Nat :=
  digits.foldl (fun n c => n * base + digitValue c) 0

/-- The number that a magnitude stands for: of base sixteen behind `0x` or `0X`, else decimal. -/
def magnitudeValue : List Char → Nat
  | '0' :: 'x' :: digits => digitsValue 16 digits
  | '0' :: 'X' :: digits => digitsValue 16 digits
  | digits => digitsValue 10 digits

/-- Whether a literal has a minus sign, and its magnitude. -/
def splitSign : List Char → Bool × List Char
  | '-' :: digits => (true, digits)
  | digits => (false, digits)

/-- The number that an integer literal stands for. -/
def literalValue (literal : List Char) : Int :=
  let (negative, magnitude) := splitSign literal
  if negative then -(magnitudeValue magnitude : Int) else magnitudeValue magnitude

/-- The value of an integer literal. -/
def integerOfLiteral (literal : List Char) : Except IntegerFault Int64 :=
  if magnitudeValue (splitSign literal).2 ≥ twoPow 127 then .error .tooLarge
  else
    let n := literalValue literal
    if -(twoPow 63 : Int) ≤ n ∧ n < twoPow 63 then .ok (Int64.ofInt n) else .error .outOfRange

/-- The character that a backslash and the given one stand for. -/
def escaped (c : Char) : Char :=
  match c with
  | 'n' => '\n'
  | 't' => '\t'
  | '0' => '\x00'
  | c => c

/-- The text that the content of a text literal stands for. -/
def unescape : List Char → List Char
  | [] => []
  | '\\' :: c :: cs => escaped c :: unescape cs
  | c :: cs => c :: unescape cs

end MessageSchema.Source
