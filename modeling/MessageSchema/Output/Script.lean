import MessageSchema.Output.Emitter

/-!
# Scripts for an emitter

A `Step` is one call of an emitter; `indented` is a scope whose steps are taken one level deeper.
`leave` returns early: it ends at once every scope that the innermost `routine` around it has
entered, and the script goes on behind that routine. Every step of the script itself is a routine
too. Besides the emitter, an `Outcome` holds what can be seen after each call: the depth and the
units it closed.
-/

namespace MessageSchema.Output

/-- One call of an emitter, a scope, a routine, or an early return. `emitPart` and `emit` append and
write the concatenation of their parts. -/
inductive Step where
  | openUnit (name : String)
  | closeUnit
  | append (text : String)
  | write (text : String)
  | emitPart (parts : List String)
  | emit (parts : List String)
  | blank
  | indented (body : List Step)
  | routine (body : List Step)
  | leave

/-- What can be seen after a call. -/
structure Event where
  depth : Nat
  closed : List OutputUnit
  left : Bool := false
deriving DecidableEq, Repr

/-- What steps lead to: the emitter, what was seen, and whether the scopes around are left. -/
structure Outcome where
  emitter : Emitter
  events : List Event := []
  leaving : Bool := false

/-- The units that `later` has closed and `earlier` has not. -/
def closedSince (earlier later : Emitter) : List OutputUnit :=
  later.closed.drop earlier.closed.length

/-- The event of a call that takes `before` to `after`. -/
def eventOf (before after : Emitter) : Event :=
  ⟨after.depth, closedSince before after, false⟩

/-- The outcome of a call that takes `before` to `after`. -/
def outcomeOf (before after : Emitter) : Outcome :=
  { emitter := after, events := [eventOf before after] }

/-- The emitter inside a scope: one level deeper. -/
def Emitter.enter (e : Emitter) : Emitter :=
  { e with depth := e.depth + 1 }

/-- Ends a scope that was entered from `outer`, after its body came to `inside`: the depth is
restored. The end of a scope is seen, with the units closed inside it, unless the scope is left. -/
def exitScope (outer : Emitter) (inside : Outcome) : Outcome :=
  let after := { inside.emitter with depth := outer.depth }
  let entry := eventOf outer outer.enter
  if inside.leaving then { emitter := after, events := entry :: inside.events, leaving := true }
  else { emitter := after, events := entry :: (inside.events ++ [eventOf outer after]) }

/-- What is seen when a script goes on after scopes have been left. -/
def resumption (o : Outcome) : List Event :=
  if o.leaving then [⟨o.emitter.depth, [], true⟩] else []

/-- Ends a routine whose body came to `inside`: what has been left is left no further. -/
def endRoutine (inside : Outcome) : Outcome :=
  { inside with events := inside.events ++ resumption inside, leaving := false }

mutual

/-- Takes one step. -/
def Step.run (e : Emitter) : Step → Outcome
  | .openUnit name => outcomeOf e (e.openUnit name)
  | .closeUnit => outcomeOf e e.closeUnit
  | .append text => outcomeOf e (e.append text)
  | .write text => outcomeOf e (e.write text)
  | .emitPart parts => outcomeOf e (e.append (String.join parts))
  | .emit parts => outcomeOf e (e.write (String.join parts))
  | .blank => outcomeOf e e.blankLine
  | .indented body => exitScope e (runScope e.enter body)
  | .routine body => endRoutine (runScope e body)
  | .leave => { emitter := e, leaving := true }

/-- Takes the steps of a scope up to the first that leaves it. -/
def runScope (e : Emitter) : List Step → Outcome
  | [] => { emitter := e }
  | step :: steps =>
    let first := step.run e
    if first.leaving then first
    else
      let rest := runScope first.emitter steps
      { rest with events := first.events ++ rest.events }

end

/-- Takes steps outside all scopes. -/
def runScript (e : Emitter) : List Step → Outcome
  | [] => { emitter := e }
  | step :: steps =>
    let first := endRoutine (step.run e)
    let rest := runScript first.emitter steps
    { rest with events := first.events ++ rest.events }

/-- The units that a script writes. -/
def unitsOf (indent : String) (script : List Step) : Except EmitError (List OutputUnit) :=
  (runScript { indent } script).emitter.finish

end MessageSchema.Output
