import MessageSchema.Output.Script

/-!
# What a script calls

`trace script`: the points that a script comes to, found without an emitter. At each point a number
of scopes is live, and a call may be made there.

- **Control** (`Step.trace`, `traceOf`): the steps of a scope have one more scope around them. A
  scope that is left has no point behind it, the routine that is returned from has one.
- **Calls** (`callsOf`): the calls at the points, each with the scopes live around it.
- **Runs** (`follows_runScript`): a run passes these points. The depth seen at a point is the
  number of live scopes, and the emitter is what the calls make of it one after another.
-/

namespace MessageSchema.Output

/-- A call of an emitter that touches its units; `add` adds to the line being written and may end
it. -/
inductive Call where
  | openUnit (name : String)
  | closeUnit
  | add (text : String) (ends : Bool)
  | blank
deriving DecidableEq, Repr

/-- A call and the number of scopes that are live around it. -/
structure PlacedCall where
  live : Nat
  call : Call
deriving DecidableEq, Repr

/-- A point of a run: the number of scopes that are live at it, and the call that is made there. -/
structure Point where
  live : Nat
  call? : Option Call := none
deriving DecidableEq, Repr

/-- The points that steps come to, and whether they return early. -/
structure Trace where
  points : List Point
  left : Bool := false
deriving DecidableEq, Repr

namespace Trace

/-- The trace of one call. -/
def ofCall (live : Nat) (call : Call) : Trace :=
  ⟨[⟨live, some call⟩], false⟩

/-- The trace of a scope with `live` scopes around it: its beginning, its body, and its end unless
it is left. -/
def scope (live : Nat) (body : Trace) : Trace :=
  let ending : List Point := if body.left then [] else [⟨live, none⟩]
  ⟨⟨live + 1, none⟩ :: (body.points ++ ending), body.left⟩

/-- The trace of a routine: its body, and the point behind it if it is returned from. -/
def routine (live : Nat) (body : Trace) : Trace :=
  let resumed : List Point := if body.left then [⟨live, none⟩] else []
  ⟨body.points ++ resumed, false⟩

end Trace

mutual

/-- The trace of a step with `live` scopes around it. -/
def Step.trace (live : Nat) : Step → Trace
  | .openUnit name => .ofCall live (.openUnit name)
  | .closeUnit => .ofCall live .closeUnit
  | .append text => .ofCall live (.add text false)
  | .write text => .ofCall live (.add text true)
  | .emitPart parts => .ofCall live (.add (String.join parts) false)
  | .emit parts => .ofCall live (.add (String.join parts) true)
  | .blank => .ofCall live .blank
  | .indented body => .scope live (traceOf (live + 1) body)
  | .routine body => .routine live (traceOf live body)
  | .leave => ⟨[], true⟩

/-- The trace of the steps of a scope, up to the first that leaves it. -/
def traceOf (live : Nat) : List Step → Trace
  | [] => ⟨[], false⟩
  | step :: steps =>
    let first := step.trace live
    if first.left then first
    else
      let rest := traceOf live steps
      ⟨first.points ++ rest.points, rest.left⟩

end

/-- The points that a script comes to. -/
def trace : List Step → List Point
  | [] => []
  | step :: steps => (Trace.routine 0 (step.trace 0)).points ++ trace steps

/-! ## Calls -/

/-- The calls at points. -/
def callsAt (points : List Point) : List PlacedCall :=
  points.filterMap fun p => p.call?.map (⟨p.live, ·⟩)

/-- The calls that a script makes. -/
def callsOf (script : List Step) : List PlacedCall :=
  callsAt (trace script)

namespace Emitter

/-- Makes a call at the present depth. -/
def call (e : Emitter) : Call → Emitter
  | .openUnit name => e.openUnit name
  | .closeUnit => e.closeUnit
  | .add text false => e.append text
  | .add text true => e.write text
  | .blank => e.blankLine

/-- Makes a call where it was placed. -/
def take (e : Emitter) (c : PlacedCall) : Emitter :=
  { ({ e with depth := c.live } : Emitter).call c.call with depth := e.depth }

/-- Makes the calls at points. -/
def takeAll (e : Emitter) (points : List Point) : Emitter :=
  (callsAt points).foldl take e

variable {e : Emitter} {points : List Point} {live : Nat}

theorem depth_call (e : Emitter) (c : Call) : (e.call c).depth = e.depth := by
  rcases c with name | _ | ⟨text, _ | _⟩ | _ <;>
    simp only [call, openUnit, closeUnit, append, write, blankLine, endLine, fail] <;>
    split <;> rfl

theorem takeAll_append (e : Emitter) (first rest : List Point) :
    e.takeAll (first ++ rest) = (e.takeAll first).takeAll rest := by
  simp [takeAll, callsAt]

theorem takeAll_pause (e : Emitter) (live : Nat) : e.takeAll [⟨live, none⟩] = e :=
  rfl

/-- A call at the present depth is a call where it was placed. -/
theorem takeAll_call (e : Emitter) (c : Call) : e.takeAll [⟨e.depth, some c⟩] = e.call c := by
  show { e.call c with depth := e.depth } = e.call c
  rw [← depth_call e c]

/-- The depth that calls begin at is the one they end at, and nothing else of it is seen. -/
theorem takeAll_depth (e : Emitter) (depth : Nat) (points : List Point) :
    ({ e with depth } : Emitter).takeAll points = { e.takeAll points with depth } := by
  have hfold : ∀ (calls : List PlacedCall) (e : Emitter),
      calls.foldl take { e with depth } = { calls.foldl take e with depth } := by
    intro calls
    induction calls with
    | nil => exact fun e => rfl
    | cons c calls ih => exact fun e => ih (e.take c)
  exact hfold (callsAt points) e

theorem depth_takeAll (e : Emitter) (points : List Point) : (e.takeAll points).depth = e.depth := by
  have h := congrArg Emitter.depth (e.takeAll_depth e.depth points)
  exact h

end Emitter

/-! ## Runs -/

/-- An outcome that passes the points of a trace. -/
structure Follows (e : Emitter) (o : Outcome) (t : Trace) : Prop where
  emitter : o.emitter = e.takeAll t.points
  depths : o.events.map (·.depth) = t.points.map (·.live)
  leaving : o.leaving = t.left

namespace Follows

variable {e : Emitter} {o : Outcome} {t : Trace}

theorem call (e : Emitter) (c : Call) : Follows e (outcomeOf e (e.call c)) (.ofCall e.depth c) where
  emitter := (e.takeAll_call c).symm
  depths := congrArg (fun depth => [depth]) (e.depth_call c)
  leaving := rfl

theorem depth (h : Follows e o t) : o.emitter.depth = e.depth := by
  rw [h.emitter, Emitter.depth_takeAll]

/-- An emitter follows the trace of a scope that it runs. -/
theorem scope (h : Follows e.enter o t) : Follows e (exitScope e o) (.scope e.depth t) := by
  have hemitter : ({ o.emitter with depth := e.depth } : Emitter) = e.takeAll t.points := by
    rw [h.emitter, Emitter.enter, Emitter.takeAll_depth]
    exact (Emitter.takeAll_depth e e.depth t.points).symm
  have hbegin : e.takeAll (⟨e.depth + 1, none⟩ :: t.points) = e.takeAll t.points :=
    Emitter.takeAll_append e [⟨e.depth + 1, none⟩] t.points
  -- a scope that runs to its end comes back to its depth, which is one more point
  rcases hleft : t.left with _ | _
  · have hleaving := h.leaving.trans hleft
    refine ⟨?_, ?_, ?_⟩
    · simp only [exitScope, hleaving, Trace.scope, hleft, Bool.false_eq_true, if_false]
      rw [hemitter, ← List.cons_append, Emitter.takeAll_append, hbegin, Emitter.takeAll_pause]
    · simp [exitScope, hleaving, Trace.scope, hleft, h.depths, eventOf, Emitter.enter]
    · simp [exitScope, hleaving, Trace.scope, hleft]
  · have hleaving := h.leaving.trans hleft
    refine ⟨?_, ?_, ?_⟩
    · simp only [exitScope, hleaving, Trace.scope, hleft, if_true, List.append_nil]
      rw [hemitter, hbegin]
    · simp [exitScope, hleaving, Trace.scope, hleft, h.depths, eventOf, Emitter.enter]
    · simp [exitScope, hleaving, Trace.scope, hleft]

theorem routine (h : Follows e o t) : Follows e (endRoutine o) (.routine e.depth t) := by
  rcases hleft : t.left with _ | _
  · have hleaving := h.leaving.trans hleft
    refine ⟨?_, ?_, rfl⟩
    · simpa [endRoutine, Trace.routine, hleft] using h.emitter
    · simpa [endRoutine, resumption, hleaving, Trace.routine, hleft] using h.depths
  · have hleaving := h.leaving.trans hleft
    refine ⟨?_, ?_, rfl⟩
    · simp only [endRoutine, Trace.routine, hleft, if_true]
      rw [Emitter.takeAll_append, Emitter.takeAll_pause, h.emitter]
    · simp [endRoutine, resumption, hleaving, Trace.routine, hleft, h.depths, h.depth]

end Follows

mutual

/-- An emitter follows the trace of every step. -/
theorem follows_run (e : Emitter) : ∀ step : Step, Follows e (step.run e) (step.trace e.depth)
  | .openUnit name => .call e (.openUnit name)
  | .closeUnit => .call e .closeUnit
  | .append text => .call e (.add text false)
  | .write text => .call e (.add text true)
  | .emitPart parts => .call e (.add (String.join parts) false)
  | .emit parts => .call e (.add (String.join parts) true)
  | .blank => .call e .blank
  | .indented body => (follows_runScope e.enter body).scope
  | .routine body => (follows_runScope e body).routine
  | .leave => ⟨rfl, rfl, rfl⟩

/-- And that of the steps of a scope, up to the one that leaves it. -/
theorem follows_runScope (e : Emitter) :
    ∀ steps : List Step, Follows e (runScope e steps) (traceOf e.depth steps)
  | [] => ⟨rfl, rfl, rfl⟩
  | step :: steps => by
    have hfirst := follows_run e step
    have hrest := follows_runScope (step.run e).emitter steps
    rw [hfirst.depth] at hrest
    rw [runScope, traceOf]
    rcases hleft : (step.trace e.depth).left with _ | _
    · have hleaving := hfirst.leaving.trans hleft
      simp only [hleaving, Bool.false_eq_true, if_false]
      refine ⟨?_, ?_, hrest.leaving⟩
      · rw [hrest.emitter, hfirst.emitter, Emitter.takeAll_append]
      · simp [hfirst.depths, hrest.depths]
    · have hleaving := hfirst.leaving.trans hleft
      simp only [hleaving, if_true]
      exact hfirst

end

/-- A run of a script passes the points of its trace. -/
theorem follows_runScript (e : Emitter) (script : List Step) (he : e.depth = 0) :
    (runScript e script).emitter = e.takeAll (trace script) ∧
      (runScript e script).events.map (·.depth) = (trace script).map (·.live) := by
  induction script generalizing e with
  | nil => exact ⟨rfl, rfl⟩
  | cons step steps ih =>
    have hfirst := (follows_run e step).routine
    obtain ⟨hemitter, hdepths⟩ := ih _ (hfirst.depth.trans he)
    rw [he] at hfirst
    refine ⟨?_, ?_⟩
    · show (runScript (endRoutine (step.run e)).emitter steps).emitter = _
      rw [hemitter, hfirst.emitter, trace, Emitter.takeAll_append]
    · show ((endRoutine (step.run e)).events ++
        (runScript (endRoutine (step.run e)).emitter steps).events).map (·.depth) = _
      rw [List.map_append, hfirst.depths, hdepths, trace, List.map_append]

end MessageSchema.Output
