import MessageSchema.Source.Lexeme
import MessageSchema.Source.Grammar

/-!
# How schema sources are written

What the sources of a document look like, apart from how they are read. The tokens of a document
stand in the order of its sections (`Section.Written`), and a source has a gap in front of each of
them and one at its end (`Rendered`).

- **Literals** (`SpellsInteger`, `SpellsText`): what an integer and a text are spelled like. An
  integer has any number of decimal digits, or of digits of base sixteen in either case; a
  character of a text may stand for itself or behind a backslash.
- **Gaps** (`IsGap`, `IsLastGap`): runs of blank characters and comments. A comment at the very end
  needs no line end.
- **Lists** (`Listed`, `Sequence`): items with commas between them and perhaps one behind the last,
  and items one behind the other.
-/

namespace MessageSchema.Source

open Text

/-! ## Literals -/

/-- The character is the digit `d`. -/
def IsDigit (d : Nat) (c : Char) : Prop :=
  c = Nat.digitChar d ∨ c = (Nat.digitChar d).toUpper

/-- Digits, of which there is at least one, and the number they stand for. -/
inductive Numeral (base : Nat) : List Char → Nat → Prop
  | digit {d : Nat} {c : Char} : d < base → IsDigit d c → Numeral base [c] d
  | snoc {s : List Char} {n d : Nat} {c : Char} :
    Numeral base s n → d < base → IsDigit d c → Numeral base (s ++ [c]) (n * base + d)

/-- The spellings of a number without a sign. -/
inductive SpellsNumber : List Char → Nat → Prop
  | decimal {s : List Char} {n : Nat} : Numeral 10 s n → SpellsNumber s n
  | hex {s : List Char} {n : Nat} {x : Char} :
    x = 'x' ∨ x = 'X' → Numeral 16 s n → SpellsNumber ('0' :: x :: s) n

/-- The spellings of an integer. -/
inductive SpellsInteger : List Char → Int → Prop
  | unsigned {s : List Char} {n : Nat} : SpellsNumber s n → SpellsInteger s n
  | negative {s : List Char} {n : Nat} : SpellsNumber s n → SpellsInteger ('-' :: s) (-n)

/-- The spellings of a text between its quotes. -/
inductive SpellsText : List Char → List Char → Prop
  | nil : SpellsText [] []
  | plain {c : Char} {s text : List Char} :
    c ≠ '\x22' → c ≠ '\\' → SpellsText s text → SpellsText (c :: s) (c :: text)
  | lineFeed {s text : List Char} : SpellsText s text → SpellsText ('\\' :: 'n' :: s) ('\n' :: text)
  | tab {s text : List Char} : SpellsText s text → SpellsText ('\\' :: 't' :: s) ('\t' :: text)
  | null {s text : List Char} : SpellsText s text → SpellsText ('\\' :: '0' :: s) ('\x00' :: text)
  | escaped {c : Char} {s text : List Char} :
    c ∉ ['n', 't', '0'] → SpellsText s text → SpellsText ('\\' :: c :: s) (c :: text)

/-- What may stand between two tokens. -/
inductive IsGap : List Char → Prop
  | nil : IsGap []
  | blank {c : Char} {g : List Char} : c ∈ [' ', '\t', '\r', '\n'] → IsGap g → IsGap (c :: g)
  | lineComment {body g : List Char} :
    '\n' ∉ body → IsGap g → IsGap ('/' :: '/' :: (body ++ '\n' :: g))
  | blockComment {body g : List Char} :
    ¬ ['*', '/'] <:+: body → IsGap g → IsGap ('/' :: '*' :: (body ++ '*' :: '/' :: g))

/-- What may stand behind the last token. -/
inductive IsLastGap : List Char → Prop
  | gap {g : List Char} : IsGap g → IsLastGap g
  | lineComment {g body : List Char} :
    IsGap g → '\n' ∉ body → IsLastGap (g ++ '/' :: '/' :: body)

/-! ## Tokens -/

/-- A text of the given tokens with a gap in front of each. -/
inductive Spaced : List (List Char) → List Char → Prop
  | nil : Spaced [] []
  | cons {g token s : List Char} {tokens : List (List Char)} :
    IsGap g → Spaced tokens s → Spaced (token :: tokens) (g ++ (token ++ s))

section Lists

variable {α : Type} (Written : α → List (List Char) → Prop)

/-- The tokens behind the first item of a list: a comma and an item again and again, and perhaps a
comma at the end. -/
inductive Continued : List α → List (List Char) → Prop
  | nil : Continued [] []
  | comma : Continued [] [[',']]
  | cons {x : α} {xs : List α} {tokens more : List (List Char)} :
    Written x tokens → Continued xs more → Continued (x :: xs) ([','] :: (tokens ++ more))

/-- The tokens of items in a list. -/
inductive Listed : List α → List (List Char) → Prop
  | nil : Listed [] []
  | cons {x : α} {xs : List α} {tokens more : List (List Char)} :
    Written x tokens → Continued Written xs more → Listed (x :: xs) (tokens ++ more)

/-- The tokens of items one behind the other. -/
inductive Sequence : List α → List (List Char) → Prop
  | nil : Sequence [] []
  | cons {x : α} {xs : List α} {tokens more : List (List Char)} :
    Written x tokens → Sequence xs more → Sequence (x :: xs) (tokens ++ more)

end Lists

/-! ## Documents -/

/-- An identifier is one token. -/
inductive IdentifierWritten : String → List (List Char) → Prop
  | name {s : String} : isIdentifier s = true → IdentifierWritten s [s.toList]

/-- The tokens of a term. -/
inductive Term.Written : Term → List (List Char) → Prop
  | none : Term.Written .absent ["none".toList]
  | underscore : Term.Written .absent [['_']]
  | true : Term.Written (.bool true) ["true".toList]
  | false : Term.Written (.bool false) ["false".toList]
  | integer {s : String} {n : Int} : SpellsInteger s.toList n → Term.Written (.integer s) [s.toList]
  | text {s : String} {text : List Char} :
    SpellsText s.toList text → Term.Written (.text s) ['\x22' :: (s.toList ++ ['\x22'])]
  | list {items : List Term} {tokens : List (List Char)} :
    Listed Term.Written items tokens → Term.Written (.list items) (['['] :: (tokens ++ [[']']]))
  | tuple {items : List Term} {tokens : List (List Char)} :
    Listed Term.Written items tokens → Term.Written (.tuple items) (['('] :: (tokens ++ [[')']]))

/-- The tokens of a row. -/
inductive RowWritten : List Term → List (List Char) → Prop
  | row {items : List Term} {tokens : List (List Char)} :
    Listed Term.Written items tokens → RowWritten items (['('] :: (tokens ++ [[')']]))

/-- The tokens of an entry of an options section. -/
inductive EntryWritten : String × Term → List (List Char) → Prop
  | entry {key : String} {value : Term} {tokens : List (List Char)} :
    isIdentifier key = true → value.Written tokens →
      EntryWritten (key, value) (key.toList :: ['='] :: (tokens ++ [[';']]))

/-- The tokens of a section. -/
inductive Section.Written : Section → List (List Char) → Prop
  | options {entries : List (String × Term)} {tokens : List (List Char)} :
    Sequence EntryWritten entries tokens →
      Section.Written (.options entries) ("options".toList :: ['\x7b'] :: (tokens ++ [['\x7d']]))
  | table {columns : List String} {rows : List (List Term)} {names tokens : List (List Char)} :
    columns ≠ [] → Listed IdentifierWritten columns names → Listed RowWritten rows tokens →
      Section.Written (.table columns rows)
        ("table".toList :: ['('] :: (names ++ [')'] :: ['\x7b'] :: (tokens ++ [['\x7d']])))

/-- The sources of a document. -/
inductive Document.Rendered : Document → List Char → Prop
  | source {document : Document} {tokens : List (List Char)} {s g : List Char} :
    Sequence Section.Written document tokens → Spaced tokens s → IsLastGap g →
      Document.Rendered document (s ++ g)

end MessageSchema.Source
