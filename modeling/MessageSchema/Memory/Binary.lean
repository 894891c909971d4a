/-!
# Binary numbers

`twoPow` is the number of values that a number of bits can have.

The encoding of floating-point numbers in the two binary formats of C. A number is decoded into an
exact significand and exponent; `round` encodes an exact number, to the nearest one of the format
and with ties to the even one. So a conversion between formats rounds at most once.
-/

namespace MessageSchema

/-- Two to the power of a number of bits. -/
def twoPow (bits : Nat) : Nat :=
  Nat.pow 2 bits

theorem twoPow_zero : twoPow 0 = 1 :=
  rfl

theorem twoPow_succ (bits : Nat) : twoPow (bits + 1) = twoPow bits * 2 :=
  rfl

theorem twoPow_add (m n : Nat) : twoPow (m + n) = twoPow m * twoPow n :=
  Nat.pow_add 2 m n

theorem twoPow_le {m n : Nat} (h : m ≤ n) : twoPow m ≤ twoPow n :=
  Nat.pow_le_pow_right (by decide) h

theorem twoPow_pos (bits : Nat) : 0 < twoPow bits := by
  induction bits with
  | zero => decide
  | succ bits ih => rw [twoPow_succ]; omega

namespace Memory


/-- A binary format: bits of the fraction and bits of the exponent; a sign bit stands above. -/
structure BinaryFormat where
  fractionBits : Nat
  exponentBits : Nat
deriving DecidableEq, Repr

/-- What an encoding stands for; a finite one for `±significand * 2 ^ exponent`. -/
inductive Datum where
  | nan (negative : Bool) (fraction : Nat)
  | infinite (negative : Bool)
  | finite (negative : Bool) (significand : Nat) (exponent : Int)
deriving DecidableEq, Repr

/-- The quotient rounded to the nearest number, of two that are equally near to the even one. -/
def roundQuotient (n d : Nat) : Nat :=
  let q := n / d
  let twice := 2 * (n % d)
  if twice > d || (twice == d && q % 2 == 1) then q + 1 else q

namespace BinaryFormat

/-- The format of `float`. -/
def single : BinaryFormat := ⟨23, 8⟩

/-- The format of `double`. -/
def double : BinaryFormat := ⟨52, 11⟩

/-- The exponent of the last place of the least numbers of a format. -/
def leastExponent (f : BinaryFormat) : Int :=
  2 - (twoPow (f.exponentBits - 1) : Int) - f.fractionBits

/-- The encoding of positive infinity. -/
def infinityBits (f : BinaryFormat) : Nat :=
  (twoPow f.exponentBits - 1) * twoPow f.fractionBits

/-- A sign bit in front of an encoding. -/
def withSign (f : BinaryFormat) (negative : Bool) (bits : Nat) : Nat :=
  if negative then twoPow (f.fractionBits + f.exponentBits) + bits else bits

/-- What an encoding stands for. -/
def decode (f : BinaryFormat) (bits : Nat) : Datum :=
  let fraction := bits % twoPow f.fractionBits
  let exponent := bits / twoPow f.fractionBits % twoPow f.exponentBits
  let negative := bits / twoPow (f.fractionBits + f.exponentBits) % 2 == 1
  if exponent = twoPow f.exponentBits - 1 then
    if fraction = 0 then .infinite negative else .nan negative fraction
  else if exponent = 0 then .finite negative fraction f.leastExponent
  else .finite negative (twoPow f.fractionBits + fraction) (f.leastExponent + (exponent - 1))

/-- Encodes `±significand * 2 ^ exponent`. The last place kept is that of the leading bit less the
bits of the fraction, but not below the least one of the format; counting its exponent from there
gives the exponent field, and a carry out of the significand goes into that field by itself. -/
def round (f : BinaryFormat) (negative : Bool) (significand : Nat) (exponent : Int) : Nat :=
  if significand = 0 then f.withSign negative 0
  else
    let last := max (exponent + significand.log2 - f.fractionBits) f.leastExponent
    let kept :=
      if last ≤ exponent then significand * twoPow (exponent - last).toNat
      else roundQuotient significand (twoPow (last - exponent).toNat)
    let bits := (last - f.leastExponent).toNat * twoPow f.fractionBits + kept
    f.withSign negative (min bits f.infinityBits)

/-- Encodes what an encoding of another format stands for. What is no number stays none, and is a
quiet one. -/
def encode (f source : BinaryFormat) : Datum → Nat
  | .finite negative significand exponent => f.round negative significand exponent
  | .infinite negative => f.withSign negative f.infinityBits
  | .nan negative fraction =>
    let quiet := twoPow (f.fractionBits - 1)
    let scaled := fraction * twoPow f.fractionBits / twoPow source.fractionBits
    f.withSign negative (f.infinityBits + quiet + scaled % quiet)

/-- Converts an encoding to another format. -/
def convert (source target : BinaryFormat) (bits : Nat) : Nat :=
  target.encode source (source.decode bits)

/-- Encodes an integer. -/
def ofInt (f : BinaryFormat) (n : Int) : Nat :=
  f.round (n < 0) n.natAbs 0

end BinaryFormat

end Memory

end MessageSchema
