/-!
# Discriminants

The discriminants of a protocol are assigned in the order of its messages: an explicit value is
taken as it is, an absent one is one more than the value before it, and before the first message
stands -1. `assign` fails at the first message whose value would exceed the range of 64 bits.

`firstCollision?` finds the first value that repeats an earlier one.
-/

namespace MessageSchema.Discriminant

/-- The value before the first message. -/
def initial : Int64 := -1

/-- The value of a message, from the one before it and its own explicit value. -/
def next (previous : Int64) : Option Int64 → Option Int64
  | some value => some value
  | none => if previous = Int64.maxValue then none else some (previous + 1)

/-- A message at position `index` has no value within 64 bits. -/
structure Overflow where
  index : Nat
deriving DecidableEq, Repr

/-- `assign` for the messages from position `index` on, behind the value `previous`. -/
def assignFrom (index : Nat) (previous : Int64) :
    List (Option Int64) → Except Overflow (List Int64)
  | [] => .ok []
  | explicit :: rest =>
    match next previous explicit with
    | none => .error ⟨index⟩
    | some value => (assignFrom (index + 1) value rest).map (value :: ·)

/-- The values of messages with the given explicit values. -/
def assign (explicit : List (Option Int64)) : Except Overflow (List Int64) :=
  assignFrom 0 initial explicit

/-- `firstCollision?` behind the values `seen`. -/
def collisionAfter (seen : List Int64) : List Int64 → Option (Nat × Nat)
  | [] => none
  | value :: rest =>
    match seen.idxOf? value with
    | some first => some (first, seen.length)
    | none => collisionAfter (seen ++ [value]) rest

/-- The positions, earlier and later, of the first value that stands a second time. -/
def firstCollision? (values : List Int64) : Option (Nat × Nat) :=
  collisionAfter [] values

end MessageSchema.Discriminant
