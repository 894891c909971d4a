import MessageSchema.Source.Lexeme
import MessageSchema.Source.Reader

/-!
# The grammar of schema sources

A schema is a sequence of sections. An options section is `options` and a block of entries
`key = term;`. A table section is `table`, the columns in parentheses, and a block of rows, which
are tuples. A term is `none` or `_`, a truth value, an integer, a text in quotes, a list in
brackets or a tuple in parentheses. Lists of any kind may end with a comma. Gaps may stand between
any two lexemes.

The source of a schema, read but not yet evaluated, is a `Document`: a list of sections. A `Term` is
the source of one cell; integers and texts are kept as they are spelled.

Terms nest, and `limit` bounds how deep: it is the length of the source, and every bracket takes a
character of it.
-/

namespace MessageSchema.Source

/-- The source of a cell. -/
inductive Term where
  | absent
  | bool (value : Bool)
  | integer (spelling : String)
  | text (spelling : String)
  | list (items : List Term)
  | tuple (items : List Term)

/-- A part of a schema source. -/
inductive Section where
  | options (entries : List (String × Term))
  | table (columns : List String) (rows : List (List Term))

/-- A schema source, section by section. -/
abbrev Document := List Section

open Reader

variable {α : Type}

/-- Reads a gap, which may be empty. -/
def gap : Reader Unit := fun c a =>
  let (skipped, rest) := splitGap c.rest
  (some ((), ⟨c.offset + skipped.length, rest⟩), a)

/-- Reads the given characters. -/
def exact (s : String) : Reader Unit := do
  let _ ← lexeme (splitExact s.toList)

/-- Reads a value between two marks, with gaps inside them. -/
def enclosed (left right : String) (p : Reader α) : Reader α := do
  exact left
  gap
  let x ← p
  gap
  exact right
  return x

/-- Reads a comma, if there is one. -/
def optionalComma : Reader Unit :=
  orElse (exact ",") (pure ())

/-- Reads one value or more with commas between them; a comma may end the list. -/
def commaSeparated (p : Reader α) (limit : Nat) : Reader (List α) := do
  let x ← p
  gap
  let xs ← many gap (do exact ","; gap; p) limit
  gap
  optionalComma
  return x :: xs

/-- Reads an identifier. -/
def identifier : Reader String :=
  asRule .identifier do
    return String.ofList (← lexeme splitIdentifier)

/-- Reads an absent cell. -/
def absentTerm : Reader Term :=
  asRule .absent do
    let _ ← firstOf [lexeme (splitWord "none".toList), lexeme (splitWord "_".toList)]
    return .absent

/-- Reads a truth value. -/
def boolTerm : Reader Term :=
  asRule .boolean do
    let word ← firstOf [lexeme (splitWord "true".toList), lexeme (splitWord "false".toList)]
    return .bool (word == "true".toList)

/-- Reads an integer. -/
def integerTerm : Reader Term :=
  asRule .integer do
    return .integer (String.ofList (← lexeme splitInteger))

/-- Reads a text. -/
def textTerm : Reader Term :=
  asRule .text do
    let quoted ← lexeme splitText
    return .text (String.ofList (quoted.drop 1).dropLast)

/-- Reads the terms of a list or of a tuple between its brackets. -/
def termItems (rule : Rule) (left right : String) (term : Reader Term) (limit : Nat) :
    Reader (List Term) :=
  asRule rule (enclosed left right (orElse (commaSeparated term limit) (pure [])))

/-- Reads a term with fewer than `limit` brackets around each other. -/
def term : (limit : Nat) → Reader Term
  | 0 => fail
  | limit + 1 =>
    firstOf [absentTerm, boolTerm, integerTerm, textTerm,
      do return .list (← termItems .list "[" "]" (term limit) limit),
      do return .tuple (← termItems .tuple "(" ")" (term limit) limit)]

/-- Reads a row of a table. -/
def row (limit : Nat) : Reader (List Term) :=
  termItems .tuple "(" ")" (term limit) limit

/-- Reads an entry of an options section. -/
def optionEntry (limit : Nat) : Reader (String × Term) :=
  asRule .option do
    let key ← identifier
    gap
    exact "="
    gap
    let value ← term limit
    gap
    exact ";"
    return (key, value)

/-- Reads an options section. -/
def optionsSection (limit : Nat) : Reader Section :=
  asRule .optionsSection do
    exact "options"
    gap
    let entries ← enclosed "\x7b" "\x7d" (many gap (optionEntry limit) limit)
    return .options entries

/-- Reads the columns of a table. -/
def columns (limit : Nat) : Reader (List String) :=
  asRule .columns (enclosed "(" ")" (commaSeparated identifier limit))

/-- Reads a table section. -/
def tableSection (limit : Nat) : Reader Section :=
  asRule .tableSection do
    exact "table"
    gap
    let names ← columns limit
    gap
    let rows ← enclosed "\x7b" "\x7d" (orElse (commaSeparated (row limit) limit) (pure []))
    return .table names rows

/-- Reads the end of the source. -/
def endOfInput : Reader Unit :=
  asRule .endOfInput fun c a => (if c.rest.isEmpty then some ((), c) else none, a)

/-- Reads a whole source. -/
def document (limit : Nat) : Reader Document :=
  asRule .schema do
    gap
    let sections ← many gap (firstOf [optionsSection limit, tableSection limit]) limit
    gap
    endOfInput
    return sections

end MessageSchema.Source
