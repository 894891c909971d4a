import MessageSchema.Text

/-!
# Lexemes

Each `split…` function splits a text into the lexeme of a kind at its beginning and the rest, so
lexeme and rest together are always the text. A lexeme is as long as its kind allows; if there is
none at the beginning, the answer is `none`. A gap, which may be empty, is a run of spaces, tabs,
line ends and comments.
-/

namespace MessageSchema.Source

open Text

/-- The characters that may stand between lexemes. -/
def isGapChar (c : Char) : Bool :=
  c == ' ' || c == '\t' || c == '\r' || c == '\n'

/-- Whether the end of a block comment stands somewhere in the text. -/
def closesComment : List Char → Bool
  | [] => false
  | '*' :: '/' :: _ => true
  | _ :: cs => closesComment cs

/-- What the characters of a gap belong to. -/
inductive GapMode where
  | blank
  | lineComment
  | blockComment

/-- Puts characters in front of a lexeme. -/
def onto (cs : List Char) (split : List Char × List Char) : List Char × List Char :=
  (cs ++ split.1, split.2)

/-- `splitGap` from inside a gap. An unclosed block comment is none. -/
def splitGapFrom : GapMode → List Char → List Char × List Char
  | _, [] => ([], [])
  | .blank, '/' :: '/' :: cs => onto ['/', '/'] (splitGapFrom .lineComment cs)
  | .blank, '/' :: '*' :: cs =>
    if closesComment cs then onto ['/', '*'] (splitGapFrom .blockComment cs)
    else ([], '/' :: '*' :: cs)
  | .blank, c :: cs =>
    if isGapChar c then onto [c] (splitGapFrom .blank cs) else ([], c :: cs)
  | .lineComment, c :: cs =>
    if c == '\n' then onto [c] (splitGapFrom .blank cs)
    else onto [c] (splitGapFrom .lineComment cs)
  | .blockComment, '*' :: '/' :: cs => onto ['*', '/'] (splitGapFrom .blank cs)
  | .blockComment, c :: cs => onto [c] (splitGapFrom .blockComment cs)

/-- Splits off the gap at the beginning. -/
def splitGap (s : List Char) : List Char × List Char :=
  splitGapFrom .blank s

/-- Splits off the given characters. -/
def splitExact (expected s : List Char) : Option (List Char × List Char) :=
  (expected.isPrefixOf? s).map fun rest => (expected, rest)

/-- Splits off the given characters where no word character follows. -/
def splitWord (expected s : List Char) : Option (List Char × List Char) :=
  match splitExact expected s with
  | some (word, []) => some (word, [])
  | some (word, c :: cs) => if isWordChar c then none else some (word, c :: cs)
  | none => none

/-- Splits off the longest run of characters that satisfy `keep`, which may not be empty. -/
def splitRun (keep : Char → Bool) (s : List Char) : Option (List Char × List Char) :=
  if (s.takeWhile keep).isEmpty then none else some (s.takeWhile keep, s.dropWhile keep)

/-- Splits off an identifier. -/
def splitIdentifier : List Char → Option (List Char × List Char)
  | [] => none
  | c :: cs =>
    if isWordStart c then some (c :: cs.takeWhile isWordChar, cs.dropWhile isWordChar) else none

/-- The digits of base sixteen. -/
def isHexDigit (c : Char) : Bool :=
  c.isDigit || ('a' ≤ c && c ≤ 'f') || ('A' ≤ c && c ≤ 'F')

/-- Splits off digits: with `0x` or `0X` in front those of base sixteen, else decimal ones. -/
def splitMagnitude (s : List Char) : Option (List Char × List Char) :=
  match s with
  | '0' :: x :: cs =>
    if (x == 'x' || x == 'X') && !(cs.takeWhile isHexDigit).isEmpty then
      some ('0' :: x :: cs.takeWhile isHexDigit, cs.dropWhile isHexDigit)
    else splitRun Char.isDigit s
  | _ => splitRun Char.isDigit s

/-- Splits off an integer: a magnitude with an optional minus sign. -/
def splitInteger : List Char → Option (List Char × List Char)
  | '-' :: cs => (splitMagnitude cs).map (onto ['-'])
  | s => splitMagnitude s

/-- Splits off the content of a text and the quote that ends it; a backslash takes the character
behind it along. -/
def splitQuoted : List Char → Option (List Char × List Char)
  | [] => none
  | '\x22' :: cs => some (['\x22'], cs)
  | '\\' :: c :: cs => (splitQuoted cs).map (onto ['\\', c])
  | '\\' :: [] => none
  | c :: cs => (splitQuoted cs).map (onto [c])

/-- Splits off a text with its quotes. -/
def splitText : List Char → Option (List Char × List Char)
  | '\x22' :: cs => (splitQuoted cs).map (onto ['\x22'])
  | _ => none

end MessageSchema.Source
