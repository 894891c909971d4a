import MessageSchema.Output.Script

/-!
# The lines of a script

`linesOf indent script`: the lines that a script writes into an open unit, as they stand in the
text. A script that only writes adds its lines to the unit (`foldl_write`), those of a scope one
level deeper (`runScope_writes`).
-/

namespace MessageSchema.Output

/-- An emitter in the middle of a unit, no line begun. -/
def Emitter.between (indent : String) (depth : Nat) (name : String) (ended : List String) :
    Emitter :=
  { indent, depth, current := some { name, ended } }

/-- The lines that a script writes. -/
def linesOf (indent : String) (script : List Step) : List String :=
  match (runScript (.between indent 0 "" []) script).emitter.current with
  | some unit => unit.ended.reverse
  | none => []

variable {indent name : String} {depth : Nat} {ended : List String}

theorem write_between (text : String) :
    (Emitter.between indent depth name ended).write text =
      .between indent depth name (Line.render indent ⟨depth, text⟩ :: ended) :=
  rfl

theorem foldl_write (texts : List String) :
    texts.foldl Emitter.write (.between indent depth name ended) =
      .between indent depth name
        ((texts.map fun text => Line.render indent ⟨depth, text⟩).reverse ++ ended) := by
  induction texts generalizing ended with
  | nil => rfl
  | cons text texts ih =>
    rw [List.foldl_cons, write_between, ih]
    simp

/-- A scope that only writes is not left. -/
theorem runScope_writes (e : Emitter) (texts : List String) :
    (runScope e (texts.map .write)).emitter = texts.foldl Emitter.write e ∧
      (runScope e (texts.map .write)).leaving = false := by
  induction texts generalizing e with
  | nil => exact ⟨rfl, rfl⟩
  | cons text texts ih => exact ih (e.write text)

/-- Lines in a nested scope are indented once more. -/
theorem run_indented_writes (texts : List String) :
    ((Step.indented (texts.map .write)).run (.between indent depth name ended)).emitter =
      .between indent depth name
        ((texts.map fun text => Line.render indent ⟨depth + 1, text⟩).reverse ++ ended) := by
  obtain ⟨hemitter, hleaving⟩ :=
    runScope_writes (.between indent (depth + 1) name ended) texts
  rw [foldl_write] at hemitter
  show (exitScope (.between indent depth name ended)
    (runScope (.between indent (depth + 1) name ended) (texts.map .write))).emitter = _
  simp only [exitScope, hemitter, hleaving]
  rfl

theorem emitter_runScript_cons (e : Emitter) (step : Step) (steps : List Step) :
    (runScript e (step :: steps)).emitter = (runScript (step.run e).emitter steps).emitter :=
  rfl

/-- The lines of a line, a scope that only writes, and a last line. -/
theorem linesOf_block (first last : String) (texts : List String) :
    linesOf indent [.write first, .indented (texts.map .write), .write last] =
      [Line.render indent ⟨0, first⟩] ++
        (texts.map fun text => Line.render indent ⟨1, text⟩) ++ [Line.render indent ⟨0, last⟩] := by
  have hrun : (runScript (.between indent 0 "" [])
      [.write first, .indented (texts.map .write), .write last]).emitter =
      .between indent 0 "" (Line.render indent ⟨0, last⟩ ::
        ((texts.map fun text => Line.render indent ⟨1, text⟩).reverse ++
          [Line.render indent ⟨0, first⟩])) := by
    rw [emitter_runScript_cons, emitter_runScript_cons, emitter_runScript_cons]
    show (((Step.indented (texts.map .write)).run (.between indent 0 "" _)).emitter.write last) = _
    rw [run_indented_writes, write_between]
    rfl
  rw [linesOf, hrun]
  simp [Emitter.between]

end MessageSchema.Output
