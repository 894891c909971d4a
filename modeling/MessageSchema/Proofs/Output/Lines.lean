import MessageSchema.Proofs.Output.Written

/-!
# Scripts that write whole lines

A script that neither opens nor closes units, returns early nor leaves a line begun
(`allWriteLines`) can be told apart from what stands around it: `textOf indent script` is what it
adds to the text of the open unit, wherever it stands (`textOf_append`). A script that puts such
bodies into units one after the other misuses nothing and writes these units: `unitsOf_unitScripts`.
-/

namespace MessageSchema.Output

/-- A call that ends what it adds. -/
def Call.endsLine : Call → Bool
  | .add _ true | .blank => true
  | _ => false

mutual

/-- A step that writes whole lines. -/
def Step.writesLines : Step → Bool
  | .write _ | .emit _ | .blank => true
  | .indented body => allWriteLines body
  | _ => false

/-- Steps that write whole lines. -/
def allWriteLines : List Step → Bool
  | [] => true
  | step :: steps => step.writesLines && allWriteLines steps

end

/-- The text that a script writes. -/
def textOf (indent : String) (script : List Step) : String :=
  textOfLines indent (linesAfter [] (callsOf script))

section Scripts

variable {script first rest : List Step} {indent : String}

theorem callsAt_append (first rest : List Point) :
    callsAt (first ++ rest) = callsAt first ++ callsAt rest :=
  List.filterMap_append

theorem trace_append (first rest : List Step) :
    trace (first ++ rest) = trace first ++ trace rest := by
  induction first with
  | nil => rfl
  | cons step first ih => rw [List.cons_append, trace, ih, trace, List.append_assoc]

theorem callsOf_append (first rest : List Step) :
    callsOf (first ++ rest) = callsOf first ++ callsOf rest := by
  rw [callsOf, trace_append, callsAt_append]
  rfl

theorem allWriteLines_append (first rest : List Step) :
    allWriteLines (first ++ rest) = (allWriteLines first && allWriteLines rest) := by
  induction first with
  | nil => rfl
  | cons step first ih => rw [List.cons_append, allWriteLines, ih, allWriteLines, Bool.and_assoc]

theorem allWriteLines_flatMap {α : Type} (xs : List α) (f : α → List Step) :
    allWriteLines (xs.flatMap f) = xs.all fun x => allWriteLines (f x) := by
  induction xs with
  | nil => rfl
  | cons x xs ih => rw [List.flatMap_cons, allWriteLines_append, ih, List.all_cons]

theorem allWriteLines_map_write {α : Type} (xs : List α) (f : α → String) :
    allWriteLines (xs.map fun x => .write (f x)) = true := by
  induction xs with
  | nil => rfl
  | cons x xs ih => exact ih

/-! ## Calls -/

/-- A trace that is not left and makes calls that end their lines. -/
structure Trace.WritesLines (t : Trace) : Prop where
  left : t.left = false
  calls : ∀ c ∈ callsAt t.points, c.call.endsLine = true

namespace Trace.WritesLines

variable {t u : Trace} {live : Nat}

theorem call {c : Call} (h : c.endsLine = true) : (Trace.ofCall live c).WritesLines := by
  refine ⟨rfl, fun d hd => ?_⟩
  obtain rfl : d = ⟨live, c⟩ := by simpa [callsAt, Trace.ofCall] using hd
  exact h

theorem scope (h : t.WritesLines) : (Trace.scope live t).WritesLines := by
  refine ⟨h.left, ?_⟩
  have hcalls : callsAt (Trace.scope live t).points = callsAt t.points := by
    simp [Trace.scope, h.left, callsAt]
  rw [hcalls]
  exact h.calls

theorem append (ht : t.WritesLines) (hu : u.WritesLines) :
    Trace.WritesLines ⟨t.points ++ u.points, u.left⟩ := by
  refine ⟨hu.left, fun c hc => ?_⟩
  rw [callsAt_append] at hc
  exact (List.mem_append.mp hc).elim (ht.calls c) (hu.calls c)

end Trace.WritesLines

mutual

theorem writesLines_trace (live : Nat) :
    ∀ step : Step, step.writesLines = true → (step.trace live).WritesLines
  | .write _, _ | .emit _, _ | .blank, _ => .call rfl
  | .indented body, h => (writesLines_traceOf (live + 1) body h).scope
  | .openUnit _, h | .closeUnit, h | .append _, h | .emitPart _, h | .routine _, h | .leave, h =>
    absurd h Bool.false_ne_true

theorem writesLines_traceOf (live : Nat) :
    ∀ steps : List Step, allWriteLines steps = true → (traceOf live steps).WritesLines
  | [], _ => ⟨rfl, nofun⟩
  | step :: steps, h => by
    obtain ⟨hstep, hsteps⟩ := Bool.and_eq_true_iff.mp h
    have hfirst := writesLines_trace live step hstep
    rw [traceOf, hfirst.left, if_neg Bool.false_ne_true]
    exact hfirst.append (writesLines_traceOf live steps hsteps)

end

/-- Nothing is returned from in a script that writes whole lines. -/
theorem trace_eq_traceOf (h : allWriteLines script = true) :
    trace script = (traceOf 0 script).points := by
  induction script with
  | nil => rfl
  | cons step script ih =>
    obtain ⟨hstep, hscript⟩ := Bool.and_eq_true_iff.mp h
    have hleft := (writesLines_trace 0 step hstep).left
    simp [trace, traceOf, Trace.routine, hleft, ih hscript]

/-- Steps that write whole lines end each line that they begin. -/
theorem endsLine_callsOf (h : allWriteLines script = true) :
    ∀ c ∈ callsOf script, c.call.endsLine = true := by
  rw [callsOf, trace_eq_traceOf h]
  exact (writesLines_traceOf 0 script h).calls

/-! ## Texts -/

/-- Behind calls that end their lines no line has begun. -/
theorem linesAfter_append {first : List PlacedCall} (h : ∀ c ∈ first, c.call.endsLine = true)
    (rest : List PlacedCall) :
    linesAfter [] (first ++ rest) = linesAfter [] first ++ linesAfter [] rest := by
  induction first with
  | nil => simp [linesAfter, endedLine]
  | cons c first ih =>
    obtain ⟨hc, hfirst⟩ := List.forall_mem_cons.mp h
    obtain ⟨live, name | _ | ⟨text, _ | _⟩ | _⟩ := c <;>
      first
      | exact absurd hc Bool.false_ne_true
      | simp [linesAfter, endedLine, ih hfirst]

/-- Behind whole lines, a text begins as if nothing stood before it. -/
theorem textOf_append (h : allWriteLines first = true) (rest : List Step) :
    textOf indent (first ++ rest) = textOf indent first ++ textOf indent rest := by
  rw [textOf, callsOf_append, linesAfter_append (endsLine_callsOf h), textOfLines, List.map_append,
    String.join_append]
  rfl

theorem textOf_flatMap {α : Type} {xs : List α} {f : α → List Step}
    (h : ∀ x ∈ xs, allWriteLines (f x) = true) :
    textOf indent (xs.flatMap f) = String.join (xs.map fun x => textOf indent (f x)) := by
  induction xs with
  | nil => rfl
  | cons x xs ih =>
    obtain ⟨hx, hxs⟩ := List.forall_mem_cons.mp h
    rw [List.flatMap_cons, textOf_append hx, ih hxs, List.map_cons, String.join_cons]

/-- A line outside all scopes is not indented. -/
theorem textOf_write (text : String) : textOf indent [.write text] = text ++ "\n" := by
  show String.join [textOfLine indent [⟨0, text⟩]] = _
  by_cases h : text = "" <;> simp [textOfLine, h]

theorem textOf_blank : textOf indent [.blank] = "\n" :=
  rfl

theorem textOf_write_cons (text : String) (rest : List Step) :
    textOf indent (.write text :: rest) = text ++ "\n" ++ textOf indent rest := by
  have h : textOf indent ([.write text] ++ rest) = _ := textOf_append rfl rest
  rwa [textOf_write] at h

theorem textOf_blank_cons (rest : List Step) :
    textOf indent (.blank :: rest) = "\n" ++ textOf indent rest := by
  have h : textOf indent ([.blank] ++ rest) = _ := textOf_append rfl rest
  rwa [textOf_blank] at h

theorem traceOf_map_write (live : Nat) (texts : List String) :
    traceOf live (texts.map .write) =
      ⟨texts.map fun text => ⟨live, some (.add text true)⟩, false⟩ := by
  induction texts with
  | nil => rfl
  | cons text texts ih => simp [traceOf, Step.trace, Trace.ofCall, ih]

theorem linesAfter_map (live : Nat) (texts : List String) :
    linesAfter [] (texts.map fun text => ⟨live, .add text true⟩) =
      texts.map fun text => [⟨live, text⟩] := by
  induction texts with
  | nil => rfl
  | cons text texts ih => simp [linesAfter, ih]

/-- A scope that only writes adds its lines one level deeper. -/
theorem textOf_indented (texts : List String) :
    textOf indent [.indented (texts.map .write)] =
      String.join (texts.map fun text => textOfLine indent [⟨1, text⟩]) := by
  have hcalls : callsOf [.indented (texts.map .write)] =
      texts.map fun text => ⟨1, .add text true⟩ := by
    simp [callsOf, trace, Step.trace, Trace.routine, Trace.scope, traceOf_map_write, callsAt]
  rw [textOf, hcalls, linesAfter_map, textOfLines, List.map_map]
  rfl

/-! ## Units -/

/-- A script that writes a unit. -/
def unitScript (name : String) (body : List Step) : List Step :=
  .openUnit name :: body ++ [.closeUnit]

section Units

variable {name : String} {body : List PlacedCall} {rest : List PlacedCall}

/-- A call that ends its line has its place in an open unit and leaves it open. -/
theorem Call.endsLine_spec {c : Call} (h : c.endsLine = true) (name : String) :
    c.next (some name) = some name ∧ c.misuse? (some name) = none ∧
      c.opens? (some name) = none ∧ c.isClose = false := by
  rcases c with name | _ | ⟨text, _ | _⟩ | _ <;>
    first
    | exact absurd h Bool.false_ne_true
    | exact ⟨rfl, rfl, rfl, rfl⟩

theorem openAfter_append (h : ∀ c ∈ body, c.call.endsLine = true) (rest : List PlacedCall) :
    openAfter (some name) (body ++ rest) = openAfter (some name) rest := by
  induction body with
  | nil => rfl
  | cons c body ih =>
    obtain ⟨hc, hbody⟩ := List.forall_mem_cons.mp h
    obtain ⟨hnext, -⟩ := Call.endsLine_spec hc name
    rw [List.cons_append, openAfter, List.foldl_cons, hnext]
    exact ih hbody

theorem misusesAfter_append (h : ∀ c ∈ body, c.call.endsLine = true) (rest : List PlacedCall) :
    misusesAfter (some name) (body ++ rest) = misusesAfter (some name) rest := by
  induction body with
  | nil => rfl
  | cons c body ih =>
    obtain ⟨hc, hbody⟩ := List.forall_mem_cons.mp h
    obtain ⟨hnext, hmisuse, -⟩ := Call.endsLine_spec hc name
    rw [List.cons_append, misusesAfter, hnext, hmisuse]
    exact ih hbody

theorem sessionsAfter_append (h : ∀ c ∈ body, c.call.endsLine = true) (rest : List PlacedCall) :
    sessionsAfter (some name) (body ++ rest) = sessionsAfter (some name) rest := by
  induction body with
  | nil => rfl
  | cons c body ih =>
    obtain ⟨hc, hbody⟩ := List.forall_mem_cons.mp h
    obtain ⟨hnext, -, hopens, -⟩ := Call.endsLine_spec hc name
    rw [List.cons_append, sessionsAfter, hnext, hopens]
    exact ih hbody

/-- Whole lines in front of the end of a unit make one session. -/
theorem sessionOf_append (h : ∀ c ∈ body, c.call.endsLine = true) (live : Nat) :
    sessionOf name (body ++ ⟨live, .closeUnit⟩ :: rest) = some ⟨name, body⟩ := by
  have hopen : ∀ c ∈ body, (!c.call.isClose) = true := fun c hc => by
    simp [(Call.endsLine_spec (h c hc) name).2.2.2]
  rw [sessionOf, if_pos (by simp), beforeClose, List.takeWhile_append_of_pos hopen]
  simp

end Units

/-- Units that are written one after the other. -/
theorem resultOf_unitScripts (units : List (String × List Step))
    (h : ∀ u ∈ units, allWriteLines u.2 = true) :
    let calls := callsOf (units.flatMap fun u => unitScript u.1 u.2)
    misusesAfter none calls = [] ∧ openAfter none calls = none ∧
      sessionsAfter none calls = units.map fun u => ⟨u.1, callsOf u.2⟩ := by
  induction units with
  | nil => exact ⟨rfl, rfl, rfl⟩
  | cons u units ih =>
    obtain ⟨hu, hunits⟩ := List.forall_mem_cons.mp h
    obtain ⟨hmisuses, hopen, hsessions⟩ := ih hunits
    have hbody := endsLine_callsOf hu
    -- the first unit is opened, written and closed before all others
    have hcalls : callsOf ((u :: units).flatMap fun u => unitScript u.1 u.2) =
        ⟨0, .openUnit u.1⟩ :: (callsOf u.2 ++ ⟨0, .closeUnit⟩ ::
          callsOf (units.flatMap fun u => unitScript u.1 u.2)) := by
      rw [List.flatMap_cons, unitScript, callsOf_append, callsOf_append, List.append_assoc]
      rfl
    refine ⟨?_, ?_, ?_⟩
    · rw [hcalls, misusesAfter]
      show misusesAfter (some u.1) _ = _
      rw [misusesAfter_append hbody]
      exact hmisuses
    · rw [hcalls, openAfter, List.foldl_cons]
      show openAfter (some u.1) _ = _
      rw [openAfter_append hbody]
      exact hopen
    · rw [hcalls, sessionsAfter]
      show (sessionOf u.1 _).toList ++ sessionsAfter (some u.1) _ = _
      rw [sessionOf_append hbody, sessionsAfter_append hbody]
      exact congrArg _ hsessions

/-- A script that writes whole lines into units that it opens and closes writes these units. -/
theorem unitsOf_unitScripts (indent : String) (units : List (String × List Step))
    (h : ∀ u ∈ units, allWriteLines u.2 = true) :
    unitsOf indent (units.flatMap fun u => unitScript u.1 u.2) =
      .ok (units.map fun u => ⟨u.1, textOf indent u.2⟩) := by
  obtain ⟨hmisuses, hopen, hsessions⟩ := resultOf_unitScripts units h
  rw [unitsOf, finish_runScript, resultOf, hmisuses, hopen, hsessions]
  simp [Session.unit, textOf]

end Scripts

end MessageSchema.Output
