import MessageSchema.Source.Reader
import MessageSchema.Text

/-!
# Messages about malformed sources

A `SyntaxError` is a position in a source and the rules that failed there. Its message shows the
line, a mark under the position, and what was expected. Line ends are left out of the line unless
the position is on one; then they are shown as control pictures.
-/

namespace MessageSchema.Source

open Text

/-- A position in a source at which no expected rule applies. -/
structure SyntaxError where
  before : List Char
  after : List Char
  failed : List Rule

namespace SyntaxError

/-- The error of a source whose reading has left the given attempts. -/
def ofAttempts (source : List Char) (a : Attempts) : SyntaxError :=
  ⟨source.take a.offset, source.drop a.offset, a.rules⟩

/-- The names of the rules that failed, each once, in the order of the grammar. -/
def expectedNames (e : SyntaxError) : List String :=
  (Rule.all.filter (e.failed.contains ·)).map Rule.name

/-- An enumeration of alternatives. -/
def alternatives : List String → String
  | [] => ""
  | [a] => a
  | [a, b] => a ++ " or " ++ b
  | names => ", ".intercalate names.dropLast ++ ", or " ++ names.getLastD ""

/-- Whether a line end stands at the position. -/
def atLineEnd (e : SyntaxError) : Bool :=
  match e.after with
  | c :: _ => c == '\r' || c == '\n'
  | [] => false

/-- A character as the control picture for it. -/
def picture (c : Char) : Char :=
  if c == '\r' then '\u240d' else if c == '\n' then '\u240a' else c

/-- The line around the position as the message shows it. -/
def shownLine (e : SyntaxError) : List Char :=
  let line := lineAround e.before e.after
  if e.atLineEnd then line.map picture else line.filter fun c => c != '\r' && c != '\n'

/-- Blank space as wide as the line up to the position. -/
def underline (e : SyntaxError) : List Char :=
  (e.shownLine.take (columnNumber e.before - 1)).map fun c => if c == '\t' then '\t' else ' '

/-- The message about a malformed source. -/
def message (e : SyntaxError) : String :=
  let line := toString (lineNumber e.before)
  let margin := String.ofList (List.replicate line.length ' ')
  "\n".intercalate
    [margin ++ "--> " ++ line ++ ":" ++ toString (columnNumber e.before),
      margin ++ " |",
      line ++ " | " ++ String.ofList e.shownLine,
      margin ++ " | " ++ String.ofList e.underline ++ "^---",
      margin ++ " |",
      margin ++ " = expected " ++ alternatives e.expectedNames]

end SyntaxError

end MessageSchema.Source
