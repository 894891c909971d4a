/-!
# Writing units of indented text

An `Emitter` writes named units of text, one open at a time, line by line. `append` adds to the
line being written and `write` adds to it and ends it; the indentation of a line is the depth at
which its first piece was added, and an empty line is not indented.

Writing with no unit open, or opening a unit while another is open, does no harm: the emitter keeps
the first such error and `finish` reports it.
-/

namespace MessageSchema.Output

/-- A finished text. -/
structure OutputUnit where
  name : String
  text : String
deriving DecidableEq, Repr

/-- Misuse of an emitter. -/
inductive EmitError where
  | alreadyOpen (opened current : String)
  | noOpenUnit
  | unclosed (name : String)
deriving DecidableEq, Repr

/-- The wording of an emitter error. -/
def EmitError.message : EmitError → String
  | .alreadyOpen opened current =>
    "unit `" ++ opened ++ "` opened while `" ++ current ++ "` is still open"
  | .noOpenUnit => "no open unit"
  | .unclosed name => "unit `" ++ name ++ "` was never closed"

/-- A line and the depth at which it began. -/
structure Line where
  depth : Nat
  text : String
deriving DecidableEq, Repr

/-- The text repeated `n` times. -/
def repeatText (s : String) : Nat → String
  | 0 => ""
  | n + 1 => s ++ repeatText s n

/-- A line as it stands in a unit; an empty one has no indentation. -/
def Line.render (indent : String) (l : Line) : String :=
  if l.text.isEmpty then "\n" else repeatText indent l.depth ++ l.text ++ "\n"

/-- A line with text added to it, or begun at the given depth. -/
def Line.extend (depth : Nat) (text : String) : Option Line → Line
  | some line => { line with text := line.text ++ text }
  | none => ⟨depth, text⟩

/-- A unit being written: its ended lines as they stand in the text, the last one first. -/
structure OpenUnit where
  name : String
  ended : List String := []
deriving DecidableEq, Repr

/-- Writes units of indented text. A line that has begun is kept apart from the unit until it
ends. -/
structure Emitter where
  indent : String
  depth : Nat := 0
  current : Option OpenUnit := none
  pending : Option Line := none
  closed : List OutputUnit := []
  error : Option EmitError := none
deriving DecidableEq, Repr

namespace OpenUnit

/-- Ends a line, if one has begun. -/
def endLine (u : OpenUnit) (indent : String) : Option Line → OpenUnit
  | some line => { u with ended := line.render indent :: u.ended }
  | none => u

/-- Writes an empty line behind the ended ones. -/
def addEmptyLine (u : OpenUnit) : OpenUnit :=
  { u with ended := "\n" :: u.ended }

/-- The unit as it is when it is closed. -/
def close (u : OpenUnit) : OutputUnit :=
  ⟨u.name, String.join u.ended.reverse⟩

end OpenUnit

namespace Emitter

/-- Keeps an error unless there is an earlier one. -/
def fail (e : Emitter) (error : EmitError) : Emitter :=
  { e with error := e.error.or (some error) }

/-- Opens a unit. -/
def openUnit (e : Emitter) (name : String) : Emitter :=
  match e.current with
  | some unit => e.fail (.alreadyOpen name unit.name)
  | none => { e with current := some { name } }

/-- Ends the line that has begun. Without an open unit it stands nowhere. -/
def endLine (e : Emitter) : Emitter :=
  { e with current := e.current.map (·.endLine e.indent e.pending), pending := none }

/-- Ends the line that has begun and closes the unit. -/
def closeUnit (e : Emitter) : Emitter :=
  let ended := e.endLine
  match ended.current with
  | some unit => { ended with current := none, closed := ended.closed ++ [unit.close] }
  | none => ended.fail .noOpenUnit

/-- Adds text to the line being written. -/
def append (e : Emitter) (text : String) : Emitter :=
  match e.current with
  | some _ => { e with pending := some (.extend e.depth text e.pending) }
  | none => e.fail .noOpenUnit

/-- Adds text to the line being written and ends it. -/
def write (e : Emitter) (text : String) : Emitter :=
  (e.append text).endLine

/-- Ends the line that has begun and writes an empty line. -/
def blankLine (e : Emitter) : Emitter :=
  let ended := e.endLine
  match ended.current with
  | some unit => { ended with current := some unit.addEmptyLine }
  | none => ended.fail .noOpenUnit

/-- The finished units; or the first error, or the unit that was left open. -/
def finish (e : Emitter) : Except EmitError (List OutputUnit) :=
  match e.error, e.current with
  | some error, _ => .error error
  | none, some unit => .error (.unclosed unit.name)
  | none, none => .ok e.closed

end Emitter

end MessageSchema.Output
