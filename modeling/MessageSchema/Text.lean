/-!
# Texts

Texts are lists of characters here, or strings where they are only put together.

- **Blank characters** (`isBlank`): the Unicode property White_Space. `trim` removes blank
  characters at both ends, `trimEnd` only at the end, and `runs` lists the maximal runs of
  characters of a kind: the words of a text are the runs of its non-blank characters.
- **C identifiers** (`isIdentifier`): an ASCII letter or underscore, followed by ASCII letters,
  digits and underscores. No other letter may stand in a C identifier here.
- **Lines and columns** (`lineNumber`, `columnNumber`): a line feed ends a line, alone or behind a
  carriage return; a carriage return alone is a character of its line. Both are counted from 1,
  columns in characters.
- **Padding** (`padLeft`, `padRight`): spaces up to a width in characters. A text that is as wide or
  wider stays as it is.
-/

namespace MessageSchema.Text

/-- The characters with the Unicode property White_Space. -/
def isBlank (c : Char) : Bool :=
  let n := c.toNat
  (0x0009 ≤ n && n ≤ 0x000d) || n == 0x0020 || n == 0x0085 || n == 0x00a0 || n == 0x1680 ||
    (0x2000 ≤ n && n ≤ 0x200a) || n == 0x2028 || n == 0x2029 || n == 0x202f || n == 0x205f ||
    n == 0x3000

/-- The text without the blank characters at its end. -/
def trimEnd (s : List Char) : List Char :=
  (s.reverse.dropWhile isBlank).reverse

/-- The text without the blank characters at either end. -/
def trim (s : List Char) : List Char :=
  trimEnd (s.dropWhile isBlank)

/-- `runs` behind a run that has already begun. -/
def runsAfter (keep : Char → Bool) (run : List Char) : List Char → List (List Char)
  | [] => if run.isEmpty then [] else [run]
  | c :: cs =>
    if keep c then runsAfter keep (run ++ [c]) cs
    else if run.isEmpty then runsAfter keep [] cs
    else run :: runsAfter keep [] cs

/-- The maximal non-empty runs of characters that satisfy `keep`, in order. -/
def runs (keep : Char → Bool) (s : List Char) : List (List Char) :=
  runsAfter keep [] s

/-- The words of a text: what blank characters separate. -/
def words (s : List Char) : List (List Char) :=
  runs (fun c => !isBlank c) s

/-- The characters an identifier may begin with. -/
def isWordStart (c : Char) : Bool :=
  c.isAlpha || c == '_'

/-- The characters an identifier may go on with. -/
def isWordChar (c : Char) : Bool :=
  c.isAlphanum || c == '_'

/-- Whether the characters spell a C identifier. -/
def isIdentifierChars : List Char → Bool
  | [] => false
  | c :: cs => isWordStart c && cs.all isWordChar

/-- Whether the text is a C identifier. -/
def isIdentifier (s : String) : Bool :=
  isIdentifierChars s.toList

/-- The text with `a` to `z` in upper case; no other character changes. -/
def upperAscii (s : String) : String :=
  String.ofList (s.toList.map Char.toUpper)

/-- The number of the line that begins or goes on behind the given characters. -/
def lineNumber (before : List Char) : Nat :=
  before.count '\n' + 1

/-- The characters of the last line of the given ones. -/
def lastLine (before : List Char) : List Char :=
  (before.reverse.takeWhile (· != '\n')).reverse

/-- The column of a character behind the given ones. -/
def columnNumber (before : List Char) : Nat :=
  (lastLine before).length + 1

/-- The characters up to the first line feed, with it. -/
def throughLineEnd : List Char → List Char
  | [] => []
  | c :: cs => if c == '\n' then [c] else c :: throughLineEnd cs

/-- The whole line around a position, with the line feed that ends it. -/
def lineAround (before after : List Char) : List Char :=
  lastLine before ++ throughLineEnd after

/-- The text with spaces in front of it up to a width. -/
def padLeft (width : Nat) (text : String) : String :=
  String.ofList (List.replicate (width - text.length) ' ') ++ text

/-- The text with spaces behind it up to a width. -/
def padRight (width : Nat) (text : String) : String :=
  text ++ String.ofList (List.replicate (width - text.length) ' ')

end MessageSchema.Text
