import Mathlib.Data.List.Basic
import Mathlib.Data.List.TakeWhile
import MessageSchema.Proofs.Output.Trace

/-!
# What a script writes

The units and the errors of a script, told from the calls that it makes and not from an emitter.
Main statement: `writes_runScript`.

- **Misuse** (`misusesAfter`): calls that need an open unit where none is, and openings where one is
  open.
- **Sessions** (`sessionsAfter`): a unit that is opened and closed again, with the calls between.
- **Lines** (`linesAfter`): the pieces that a session adds, divided into lines. What stands in a
  unit is each line behind the indentation of its first piece (`textOfLine`).
- **Runs** (`take_of_none`, `take_of_some`): what one call does to an emitter, and by induction
  what all do (`current_foldl`, `error_foldl`, `closed_foldl`). The induction carries along the
  pieces of the line that the emitter has begun; without an open unit there are none (`HasBegun`).
-/

namespace MessageSchema.Output

namespace Call

/-- The unit that is open behind a call. -/
def next : Option String → Call → Option String
  | none, .openUnit name => some name
  | some _, .closeUnit => none
  | current, _ => current

/-- What is wrong about a call, by the unit that is open. -/
def misuse? : Option String → Call → Option EmitError
  | none, .openUnit _ => none
  | none, _ => some .noOpenUnit
  | some current, .openUnit name => some (.alreadyOpen name current)
  | some _, _ => none

/-- The unit that a call opens. -/
def opens? : Option String → Call → Option String
  | none, .openUnit name => some name
  | _, _ => none

/-- Whether a call closes the open unit. -/
def isClose : Call → Bool
  | .closeUnit => true
  | _ => false

@[simp] theorem isClose_closeUnit : isClose .closeUnit = true :=
  rfl

@[simp] theorem isClose_openUnit (name : String) : isClose (.openUnit name) = false :=
  rfl

@[simp] theorem isClose_add (text : String) (ends : Bool) : isClose (.add text ends) = false :=
  rfl

@[simp] theorem isClose_blank : isClose .blank = false :=
  rfl

end Call

/-- The unit that is open behind calls. -/
def openAfter (current : Option String) (calls : List PlacedCall) : Option String :=
  calls.foldl (fun current c => c.call.next current) current

/-- The errors of calls in order. -/
def misusesAfter (current : Option String) : List PlacedCall → List EmitError
  | [] => []
  | c :: calls => (c.call.misuse? current).toList ++ misusesAfter (c.call.next current) calls

/-! ## Sessions -/

/-- A unit and the calls that are made while it is open. -/
structure Session where
  name : String
  received : List PlacedCall
deriving DecidableEq, Repr

/-- The calls up to the first that closes a unit. -/
def beforeClose (calls : List PlacedCall) : List PlacedCall :=
  calls.takeWhile (!·.call.isClose)

/-- The session of a unit that is opened in front of `calls`, if it is closed again. -/
def sessionOf (name : String) (calls : List PlacedCall) : Option Session :=
  if calls.any (·.call.isClose) then some ⟨name, beforeClose calls⟩ else none

/-- The sessions that begin in calls, by the unit that is open in front of them. -/
def sessionsAfter (current : Option String) : List PlacedCall → List Session
  | [] => []
  | c :: calls =>
    ((c.call.opens? current).bind (sessionOf · calls)).toList ++
      sessionsAfter (c.call.next current) calls

/-- A session within calls: the unit is opened when none is open, and closed by the next call that
closes one. -/
def Session.Within (s : Session) (current : Option String) (calls : List PlacedCall) : Prop :=
  ∃ before opening closing after,
    calls = before ++ opening :: (s.received ++ closing :: after) ∧
      openAfter current before = none ∧ opening.call = .openUnit s.name ∧
      closing.call = .closeUnit ∧ ∀ c ∈ s.received, c.call ≠ .closeUnit

section Sessions

variable {current : Option String} {name : String} {calls : List PlacedCall} {s : Session}

theorem isClose_iff {c : Call} : c.isClose = true ↔ c = .closeUnit := by
  cases c <;> simp

theorem opens?_eq_some {c : Call} (h : c.opens? current = some name) :
    current = none ∧ c = .openUnit name := by
  rcases current with _ | current <;> rcases c with name | _ | _ | _ <;> simp_all [Call.opens?]

theorem sessionOf_eq_some (h : sessionOf name calls = some s) :
    s.name = name ∧ ∃ closing after, calls = s.received ++ closing :: after ∧
      closing.call = .closeUnit ∧ ∀ c ∈ s.received, c.call ≠ .closeUnit := by
  rw [sessionOf] at h
  split at h
  · rename_i hany
    cases h
    obtain ⟨c, hc, hclose⟩ := List.any_eq_true.mp hany
    have hsplit := List.takeWhile_append_dropWhile (p := fun c => !c.call.isClose) (l := calls)
    rcases hrest : calls.dropWhile (fun c => !c.call.isClose) with _ | ⟨closing, after⟩
    · have hnone := List.dropWhile_eq_nil_iff.mp hrest c hc
      simp [hclose] at hnone
    · have hhead := List.head?_dropWhile_not (fun c : PlacedCall => !c.call.isClose) calls
      rw [hrest] at hhead hsplit
      refine ⟨rfl, closing, after, hsplit.symm, isClose_iff.mp (by simpa using hhead), ?_⟩
      intro c hc hclose
      have hopen := List.mem_takeWhile_imp hc
      simp [hclose] at hopen
  · cases h

/-- A session lies within the calls that it is found in. -/
theorem within_of_mem_sessionsAfter (h : s ∈ sessionsAfter current calls) :
    s.Within current calls := by
  induction calls generalizing current with
  | nil => cases h
  | cons c calls ih =>
    have hlater : s ∈ sessionsAfter (c.call.next current) calls →
        s.Within current (c :: calls) := by
      intro hs
      obtain ⟨before, opening, closing, after, hcalls, hrest⟩ := ih hs
      exact ⟨c :: before, opening, closing, after, by rw [hcalls]; rfl, hrest⟩
    rcases List.mem_append.mp h with hfirst | hs
    · obtain ⟨name, hname, hs⟩ := Option.bind_eq_some_iff.mp (Option.mem_toList.mp hfirst)
      obtain ⟨rfl, hopening⟩ := opens?_eq_some hname
      obtain ⟨rfl, closing, after, hcalls, hclosing⟩ := sessionOf_eq_some hs
      exact ⟨[], c, closing, after, by rw [hcalls]; rfl, rfl, hopening, hclosing⟩
    · exact hlater hs

end Sessions

/-! ## Lines -/

/-- A piece of a line and the number of scopes that are live where it is added. -/
structure LinePiece where
  live : Nat
  text : String
deriving DecidableEq, Repr

/-- The piece that a call adds. -/
def PlacedCall.piece? (c : PlacedCall) : Option LinePiece :=
  match c.call with
  | .add text _ => some ⟨c.live, text⟩
  | _ => none

/-- The line that a line break ends, if one has begun. -/
def endedLine (begun : List LinePiece) : List (List LinePiece) :=
  if begun.isEmpty then [] else [begun]

/-- The lines that are completed by calls and by the closing behind them; `begun` is the line that
has begun before. An empty line has no pieces. -/
def linesAfter (begun : List LinePiece) : List PlacedCall → List (List LinePiece)
  | [] => endedLine begun
  | c :: calls =>
    match c.call with
    | .add text false => linesAfter (begun ++ [⟨c.live, text⟩]) calls
    | .add text true => (begun ++ [⟨c.live, text⟩]) :: linesAfter [] calls
    | .blank => endedLine begun ++ [] :: linesAfter [] calls
    | .openUnit _ | .closeUnit => linesAfter begun calls

/-- The text of a line, indented by the depth at which its first piece was added if it is not
empty. -/
def textOfLine (indent : String) (line : List LinePiece) : String :=
  let text := String.join (line.map (·.text))
  let depth := (line.head?.map (·.live)).getD 0
  if text = "" then "\n" else String.join (List.replicate depth indent) ++ text ++ "\n"

/-- The text of lines. -/
def textOfLines (indent : String) (lines : List (List LinePiece)) : String :=
  String.join (lines.map (textOfLine indent))

/-- The unit that a session writes. -/
def Session.unit (indent : String) (s : Session) : OutputUnit :=
  ⟨s.name, textOfLines indent (linesAfter [] s.received)⟩

section Lines

variable {begun : List LinePiece} {calls : List PlacedCall}

theorem flatten_endedLine (begun : List LinePiece) : (endedLine begun).flatten = begun := by
  cases begun <;> simp [endedLine]

/-- Every piece stands in one line, and no other pieces do. -/
theorem flatten_linesAfter (begun : List LinePiece) (calls : List PlacedCall) :
    (linesAfter begun calls).flatten = begun ++ calls.filterMap PlacedCall.piece? := by
  induction calls generalizing begun with
  | nil => simp [linesAfter, flatten_endedLine]
  | cons c calls ih =>
    obtain ⟨live, name | _ | ⟨text, _ | _⟩ | _⟩ := c <;>
      simp [linesAfter, ih, flatten_endedLine, List.filterMap_cons, PlacedCall.piece?]

theorem textOfLine_ends (indent : String) (line : List LinePiece) :
    ∃ t, textOfLine indent line = t ++ "\n" := by
  unfold textOfLine
  dsimp only
  split
  · exact ⟨"", rfl⟩
  · exact ⟨_, rfl⟩

/-- Lines make a text that is empty or ends as its last line does. -/
theorem textOfLines_ends (indent : String) (lines : List (List LinePiece)) :
    textOfLines indent lines = "" ∨ ∃ t, textOfLines indent lines = t ++ "\n" := by
  rcases List.eq_nil_or_concat' lines with rfl | ⟨first, line, rfl⟩
  · exact .inl rfl
  · obtain ⟨t, ht⟩ := textOfLine_ends indent line
    refine .inr ⟨textOfLines indent first ++ t, ?_⟩
    simp [textOfLines, ht, String.append_assoc]

end Lines

/-! ## Open units -/

/-- The line that has begun with pieces. -/
def beginning (begun : List LinePiece) : Option Line :=
  begun.head?.map fun first => ⟨first.live, String.join (begun.map (·.text))⟩

/-- What an open unit becomes when it receives calls and is closed. -/
def closedBehind (indent : String) (u : OpenUnit) (begun : List LinePiece)
    (calls : List PlacedCall) : OutputUnit :=
  ⟨u.name, String.join u.ended.reverse ++ textOfLines indent (linesAfter begun calls)⟩

section OpenUnits

variable {indent : String} {u : OpenUnit} {begun : List LinePiece} {calls : List PlacedCall}
  {live : Nat} {text : String}

theorem repeatText_eq (s : String) (n : Nat) :
    repeatText s n = String.join (List.replicate n s) := by
  induction n with
  | zero => rfl
  | succ n ih => rw [repeatText, ih, List.replicate_succ, String.join_cons]

/-- A piece goes to the line that has begun, or begins one. -/
theorem extend_beginning (begun : List LinePiece) (live : Nat) (text : String) :
    some (.extend live text (beginning begun)) = beginning (begun ++ [⟨live, text⟩]) := by
  cases begun <;> simp [beginning, Line.extend, String.append_assoc]

@[simp] theorem name_endLine (line : Option Line) : (u.endLine indent line).name = u.name := by
  cases line <;> rfl

@[simp] theorem name_addEmptyLine : u.addEmptyLine.name = u.name :=
  rfl

theorem join_ended_endLine (u : OpenUnit) (indent : String) (begun : List LinePiece) :
    String.join (u.endLine indent (beginning begun)).ended.reverse =
      String.join u.ended.reverse ++ textOfLines indent (endedLine begun) := by
  cases begun with
  | nil => simp [beginning, OpenUnit.endLine, endedLine, textOfLines]
  | cons first begun =>
    have hline : Line.render indent ⟨first.live, String.join ((first :: begun).map (·.text))⟩ =
        textOfLine indent (first :: begun) := by
      simp [Line.render, textOfLine, repeatText_eq, String.isEmpty_iff]
    simp [beginning, OpenUnit.endLine, endedLine, textOfLines, ← hline]

/-- A unit that is closed ends the line that has begun. -/
theorem close_endLine :
    (u.endLine indent (beginning begun)).close = closedBehind indent u begun [] := by
  rw [OpenUnit.close, join_ended_endLine, name_endLine]
  rfl

theorem closedBehind_write :
    closedBehind indent (u.endLine indent (beginning (begun ++ [⟨live, text⟩]))) [] calls =
      closedBehind indent u begun (⟨live, .add text true⟩ :: calls) := by
  have hended : endedLine (begun ++ [⟨live, text⟩]) = [begun ++ [⟨live, text⟩]] := by
    simp [endedLine]
  simp [closedBehind, linesAfter, join_ended_endLine, hended, textOfLines, String.append_assoc]

theorem closedBehind_blank (live : Nat) :
    closedBehind indent (u.endLine indent (beginning begun)).addEmptyLine [] calls =
      closedBehind indent u begun (⟨live, .blank⟩ :: calls) := by
  have hblank : textOfLine indent [] = "\n" := rfl
  simp [closedBehind, linesAfter, OpenUnit.addEmptyLine, join_ended_endLine, textOfLines, hblank,
    String.append_assoc]

end OpenUnits

namespace Emitter

variable {e : Emitter} {u : OpenUnit} {begun : List LinePiece}

theorem name_current_take (e : Emitter) (c : PlacedCall) :
    (e.take c).current.map (·.name) = c.call.next (e.current.map (·.name)) := by
  obtain ⟨live, name | _ | ⟨text, _ | _⟩ | _⟩ := c <;> rcases hcurrent : e.current with _ | u <;>
    simp [take, call, openUnit, closeUnit, append, write, blankLine, endLine, fail, hcurrent,
      Call.next]

theorem error_take (e : Emitter) (c : PlacedCall) :
    (e.take c).error = e.error.or (c.call.misuse? (e.current.map (·.name))) := by
  obtain ⟨live, name | _ | ⟨text, _ | _⟩ | _⟩ := c <;> rcases hcurrent : e.current with _ | u <;>
    simp [take, call, openUnit, closeUnit, append, write, blankLine, endLine, fail, hcurrent,
      Call.misuse?]

/-- The calls say which unit is open. -/
theorem current_foldl (e : Emitter) (calls : List PlacedCall) :
    (calls.foldl take e).current.map (·.name) = openAfter (e.current.map (·.name)) calls := by
  induction calls generalizing e with
  | nil => rfl
  | cons c calls ih =>
    rw [List.foldl_cons, ih, name_current_take]
    rfl

/-- The first misuse is kept. -/
theorem error_foldl (e : Emitter) (calls : List PlacedCall) :
    (calls.foldl take e).error =
      e.error.or (misusesAfter (e.current.map (·.name)) calls).head? := by
  induction calls generalizing e with
  | nil => simp [misusesAfter]
  | cons c calls ih =>
    rw [List.foldl_cons, ih, error_take, name_current_take, misusesAfter]
    rcases e.error with _ | error <;> rcases c.call.misuse? _ with _ | misuse <;> simp

/-- An emitter that has begun a line of the given pieces. Without an open unit there are none. -/
structure HasBegun (e : Emitter) (begun : List LinePiece) : Prop where
  pending : e.pending = beginning begun
  idle : e.current = none → begun = []

/-- Without an open unit a call opens one or changes nothing but the error. -/
theorem take_of_none (h : e.HasBegun begun) (hcurrent : e.current = none) (c : PlacedCall) :
    e.take c = match c.call with
      | .openUnit name => { e with current := some { name } }
      | _ => e.fail .noOpenUnit := by
  have hpending : e.pending = none := by
    rw [h.pending, h.idle hcurrent]
    rfl
  obtain ⟨live, name | _ | ⟨text, _ | _⟩ | _⟩ := c <;>
    simp [take, call, openUnit, closeUnit, append, write, blankLine, endLine, fail, hcurrent,
      hpending]

/-- What a call does to an open unit. -/
theorem take_of_some (hcurrent : e.current = some u) (c : PlacedCall) :
    e.take c = match c.call with
      | .openUnit name => e.fail (.alreadyOpen name u.name)
      | .closeUnit => { e with
          current := none
          pending := none
          closed := e.closed ++ [(u.endLine e.indent e.pending).close] }
      | .add text false => { e with pending := some (.extend c.live text e.pending) }
      | .add text true => { e with
          current := some (u.endLine e.indent (some (.extend c.live text e.pending)))
          pending := none }
      | .blank => { e with
          current := some (u.endLine e.indent e.pending).addEmptyLine
          pending := none } := by
  obtain ⟨live, name | _ | ⟨text, _ | _⟩ | _⟩ := c <;>
    simp [take, call, openUnit, closeUnit, append, write, blankLine, endLine, fail, hcurrent]

/-- The unit that an emitter has open, as it is closed by calls, and the sessions behind it;
`begun` is the line that the emitter has begun. -/
def closings (e : Emitter) (begun : List LinePiece) (calls : List PlacedCall) : List OutputUnit :=
  let first := match e.current with
    | none => []
    | some u =>
      if calls.any (·.call.isClose) then [closedBehind e.indent u begun (beforeClose calls)] else []
  first ++ (sessionsAfter (e.current.map (·.name)) calls).map (·.unit e.indent)

/-- One call closes what is closed next, or leaves it to the calls behind it. -/
theorem closings_cons (h : e.HasBegun begun) (c : PlacedCall) (calls : List PlacedCall) :
    ∃ begun', (e.take c).HasBegun begun' ∧
      e.closed ++ e.closings begun (c :: calls) =
        (e.take c).closed ++ (e.take c).closings begun' calls := by
  have hpending := h.pending
  rcases hcurrent : e.current with _ | u
  · rw [take_of_none h hcurrent]
    have hbegun := h.idle hcurrent
    obtain ⟨live, name | _ | ⟨text, _ | _⟩ | _⟩ := c
    · refine ⟨begun, ⟨hpending, by simp⟩, ?_⟩
      by_cases hclose : calls.any (·.call.isClose) = true <;>
        simp [closings, hcurrent, sessionsAfter, sessionOf, Call.opens?, Call.next, hclose,
          closedBehind, Session.unit, hbegun]
    all_goals exact ⟨begun, ⟨hpending, fun _ => hbegun⟩,
      by simp [closings, fail, hcurrent, sessionsAfter, Call.opens?, Call.next]⟩
  · rw [take_of_some hcurrent, hpending]
    -- behind a call the same line has begun, or none, or the line with one piece more
    obtain ⟨live, name | _ | ⟨text, _ | _⟩ | _⟩ := c
    · refine ⟨begun, ⟨hpending, h.idle⟩, ?_⟩
      simp [closings, fail, hcurrent, sessionsAfter, Call.opens?, Call.next, beforeClose,
        closedBehind, linesAfter]
    · refine ⟨[], ⟨rfl, fun _ => rfl⟩, ?_⟩
      simp [closings, hcurrent, sessionsAfter, Call.opens?, Call.next, beforeClose, close_endLine]
    · refine ⟨begun ++ [⟨live, text⟩], ⟨extend_beginning begun live text, ?_⟩, ?_⟩
      · simp [hcurrent]
      · simp [closings, hcurrent, sessionsAfter, Call.opens?, Call.next, beforeClose, closedBehind,
          linesAfter]
    · refine ⟨[], ⟨rfl, by simp⟩, ?_⟩
      simp [closings, hcurrent, sessionsAfter, Call.opens?, Call.next, beforeClose,
        extend_beginning, closedBehind_write]
    · refine ⟨[], ⟨rfl, by simp⟩, ?_⟩
      simp [closings, hcurrent, sessionsAfter, Call.opens?, Call.next, beforeClose,
        closedBehind_blank live]

/-- Each session closes one unit, behind those that were closed before. -/
theorem closed_foldl (h : e.HasBegun begun) (calls : List PlacedCall) :
    (calls.foldl take e).closed = e.closed ++ e.closings begun calls := by
  induction calls generalizing e begun with
  | nil => rcases hcurrent : e.current with _ | u <;> simp [closings, hcurrent, sessionsAfter]
  | cons c calls ih =>
    obtain ⟨begun', hbegun, hclosings⟩ := closings_cons h c calls
    rw [List.foldl_cons, ih hbegun, hclosings]

end Emitter

/-- What calls on a new emitter come to: their first error, or the unit that they leave open, or the
units of their sessions. -/
def resultOf (indent : String) (calls : List PlacedCall) : Except EmitError (List OutputUnit) :=
  match (misusesAfter none calls).head?, openAfter none calls with
  | some error, _ => .error error
  | none, some name => .error (.unclosed name)
  | none, none => .ok ((sessionsAfter none calls).map (·.unit indent))

/-- The units are those of the sessions. -/
theorem closed_runScript (indent : String) (script : List Step) :
    (runScript { indent } script).emitter.closed =
      (sessionsAfter none (callsOf script)).map (·.unit indent) := by
  have hbegun : ({ indent } : Emitter).HasBegun [] := ⟨rfl, fun _ => rfl⟩
  rw [(follows_runScript { indent } script rfl).1, Emitter.takeAll,
    Emitter.closed_foldl hbegun]
  rfl

/-- The result of a script follows from its calls. -/
theorem finish_runScript (indent : String) (script : List Step) :
    (runScript { indent } script).emitter.finish = resultOf indent (callsOf script) := by
  have hrun := (follows_runScript { indent } script rfl).1
  have herror : (runScript { indent } script).emitter.error =
      (misusesAfter none (callsOf script)).head? := by
    rw [hrun, Emitter.takeAll, Emitter.error_foldl]
    rfl
  have hcurrent : (runScript { indent } script).emitter.current.map (·.name) =
      openAfter none (callsOf script) := by
    rw [hrun, Emitter.takeAll, Emitter.current_foldl]
    rfl
  rw [Emitter.finish, herror, resultOf, ← hcurrent, ← closed_runScript]
  rcases (misusesAfter none (callsOf script)).head? with _ | error <;>
    rcases (runScript { indent } script).emitter.current with _ | u <;> rfl

/-- What a script comes to, by its trace. -/
structure Writes (indent : String) (script : List Step) (o : Outcome) : Prop where
  depths : o.events.map (·.depth) = (trace script).map (·.live)
  closed : o.emitter.closed = (sessionsAfter none (callsOf script)).map (·.unit indent)
  between : ∀ s ∈ sessionsAfter none (callsOf script), s.Within none (callsOf script)
  pieces : ∀ s ∈ sessionsAfter none (callsOf script),
    (linesAfter [] s.received).flatten = s.received.filterMap PlacedCall.piece?
  ends : ∀ u ∈ o.emitter.closed, u.text = "" ∨ ∃ t, u.text = t ++ "\n"
  finish : o.emitter.finish = resultOf indent (callsOf script)

/-- The depth at each point is the number of live scopes, a unit holds the lines of what is called
between its opening and its closing and nothing else, and the first misuse decides how a script
ends. -/
theorem writes_runScript (indent : String) (script : List Step) :
    Writes indent script (runScript { indent } script) where
  depths := (follows_runScript { indent } script rfl).2
  closed := closed_runScript indent script
  between _ hs := within_of_mem_sessionsAfter hs
  pieces s _ := flatten_linesAfter [] s.received
  ends u hu := by
    rw [closed_runScript] at hu
    obtain ⟨s, -, rfl⟩ := List.mem_map.mp hu
    exact textOfLines_ends indent _
  finish := finish_runScript indent script

/-- A line keeps the depth of its first piece when the scopes around that are left. -/
example : unitsOf "  "
    [.openUnit "t", .routine [.indented [.indented [.append "deep", .leave], .write "never"]],
      .emit [" and ", "high"], .closeUnit] = .ok [⟨"t", "    deep and high\n"⟩] := by
  decide

end MessageSchema.Output
