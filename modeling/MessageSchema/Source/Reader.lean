/-!
# Readers

A `Reader` reads a value from a text or fails. Choice is ordered and a failure goes back to where
the choice began. Besides, a reader keeps `Attempts`: the farthest position at which a rule of the
grammar was tried and failed, with the rules that failed there. They outlive the failure, because
the message about a malformed text is made of them.

When a rule fails, it takes the place of the rules that failed inside it at its own position,
unless that was exactly one: the single inner rule says more than the outer one.
-/

namespace MessageSchema.Source

/-- The rules of the grammar, in the order in which a message lists them. -/
inductive Rule where
  | endOfInput
  | schema
  | optionsSection
  | option
  | tableSection
  | columns
  | absent
  | boolean
  | integer
  | text
  | list
  | tuple
  | identifier
deriving DecidableEq, Repr

/-- The rules in the order in which a message lists them. -/
def Rule.all : List Rule :=
  [.endOfInput, .schema, .optionsSection, .option, .tableSection, .columns, .absent, .boolean,
    .integer, .text, .list, .tuple, .identifier]

/-- The name of a rule in a message. -/
def Rule.name : Rule → String
  | .endOfInput => "EOI"
  | .schema => "schema"
  | .optionsSection => "options_section"
  | .option => "option"
  | .tableSection => "table_section"
  | .columns => "columns"
  | .absent => "none"
  | .boolean => "boolean"
  | .integer => "integer"
  | .text => "string"
  | .list => "list"
  | .tuple => "tuple"
  | .identifier => "ident"

/-- A position in a text: how many characters stand before it, and those behind it. -/
structure Cursor where
  offset : Nat
  rest : List Char

/-- The rules that failed at the farthest position, in the order in which they failed. -/
structure Attempts where
  offset : Nat := 0
  rules : List Rule := []

namespace Attempts

/-- How many rules are on record at a position. -/
def countAt (a : Attempts) (offset : Nat) : Nat :=
  if offset = a.offset then a.rules.length else 0

/-- Records that a rule failed at a position. `before` is what `countAt` was when it was tried. -/
def recordFailure (a : Attempts) (rule : Rule) (offset before : Nat) : Attempts :=
  if a.countAt offset = before + 1 then a
  else if offset = a.offset then { a with rules := a.rules.take before ++ [rule] }
  else if offset > a.offset then ⟨offset, [rule]⟩
  else a

end Attempts

/-- Reads a value at a cursor, or fails; the attempts are kept in either case. -/
def Reader (α : Type) : Type :=
  Cursor → Attempts → Option (α × Cursor) × Attempts

namespace Reader

variable {α β : Type}

instance : Monad Reader where
  pure x := fun c a => (some (x, c), a)
  bind p f := fun c a =>
    match p c a with
    | (some (x, c'), a') => f x c' a'
    | (none, a') => (none, a')

/-- Reads nothing: it fails. -/
def fail : Reader α :=
  fun _ a => (none, a)

/-- Reads with `p`; if that fails, with `q` from the same place. -/
def orElse (p q : Reader α) : Reader α := fun c a =>
  match p c a with
  | (some r, a') => (some r, a')
  | (none, a') => q c a'

/-- The first of the readers that does not fail. -/
def firstOf : List (Reader α) → Reader α
  | [] => fail
  | p :: ps => p.orElse (firstOf ps)

/-- Reads a lexeme. -/
def lexeme (split : List Char → Option (List Char × List Char)) : Reader (List Char) :=
  fun c a =>
    match split c.rest with
    | some (read, rest) => (some (read, ⟨c.offset + read.length, rest⟩), a)
    | none => (none, a)

/-- Reads as a rule of the grammar: a failure goes on record. -/
def asRule (rule : Rule) (p : Reader α) : Reader α := fun c a =>
  match p c a with
  | (some r, a') => (some r, a')
  | (none, a') => (none, a'.recordFailure rule c.offset (a.countAt c.offset))

/-- Reads values with `p` as long as it succeeds, with `gap` in front of each; `limit` bounds their
number. -/
def repeated (gap : Reader Unit) (p : Reader α) : Nat → Reader (List α)
  | 0 => pure []
  | limit + 1 =>
    orElse (do
      gap
      let x ← p
      let xs ← repeated gap p limit
      return x :: xs) (pure [])

/-- Reads any number of values, with `gap` between them. -/
def many (gap : Reader Unit) (p : Reader α) (limit : Nat) : Reader (List α) :=
  orElse (do
    let x ← p
    let xs ← repeated gap p limit
    return x :: xs) (pure [])

end Reader

end MessageSchema.Source
