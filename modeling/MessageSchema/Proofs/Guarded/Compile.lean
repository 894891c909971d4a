import MessageSchema.Compile
import MessageSchema.Proofs.Generated.Outcome
import MessageSchema.Proofs.Guarded.Discriminants
import MessageSchema.Proofs.Guarded.Sources

/-!
# No source breaks the compiler

`parse`, `load` and `compile` end with a result or with an error in their input, whatever the source
and the overrides are. Done in the steps that might break, they do the same and no step breaks:
there is a parse tree and each of its nodes has the parts that are looked for, no backslash stands
alone, a table with rows has a column of names, every position is an index of its list, and the
emitter is used as it is meant to be. Main statement: `neverBreaks`.
-/

namespace MessageSchema

open Guarded Output Source

namespace Generated

/-- `generate`, which breaks where the emitter has an error to report. -/
def generateGuarded (s : Settings) (p : Protocol) (sourceName : String) :
    Guarded GenerateError (List OutputUnit) :=
  match generate s p sourceName with
  | .error (.emission _) => fault .emitterMisuse
  | .error e => report e
  | .ok units => .ok units

/-- A generation does not break. -/
theorem generateGuarded_eq (s : Settings) (p : Protocol) (sourceName : String) :
    generateGuarded s p sourceName = guarded (generate s p sourceName) := by
  rw [generateGuarded, generate_eq]
  by_cases hentries : p.entries = []
  · rw [if_pos hentries]
    rfl
  · rw [if_neg hentries]
    rcases firstClash? (declaredSymbols s p) <;> rfl

end Generated

/-- `load` in steps that might break. -/
def loadGuarded (source : String) (overrides : List (String × Cell)) :
    Guarded LoadError LoadedSchema := do
  let parsed ← (parseGuarded source).within .source
  let settings ← guarded ((settingsOf parsed.options overrides).mapError .setting)
  let protocol ← (Protocol.resolveGuarded settings.policy parsed.messages).within .resolve
  return ⟨protocol, settings⟩

/-- `compile` in steps that might break. -/
def compileGuarded (source sourceName : String) (overrides : List (String × Cell)) :
    Guarded CompileError (List OutputUnit) := do
  let loaded ← (loadGuarded source overrides).within .load
  (Generated.generateGuarded loaded.settings loaded.protocol sourceName).within .generate

/-- Loading a source does not break. -/
theorem loadGuarded_eq (source : String) (overrides : List (String × Cell)) :
    loadGuarded source overrides = guarded (load source overrides) := by
  simp only [loadGuarded, load, parseGuarded_eq, Protocol.resolveGuarded_eq, within_guarded,
    guarded_bind]
  rfl

/-- Nor does compiling it. -/
theorem compileGuarded_eq (source sourceName : String) (overrides : List (String × Cell)) :
    compileGuarded source sourceName overrides = guarded (compile source sourceName overrides) := by
  simp only [compileGuarded, compile, loadGuarded_eq, Generated.generateGuarded_eq, within_guarded,
    guarded_bind]

/-- Reading, loading and compiling do not break, and what might break in them makes no difference
to what they end with. -/
structure NeverBreaks (source sourceName : String) (overrides : List (String × Cell)) : Prop where
  parse : parseGuarded source = guarded (parse source)
  load : loadGuarded source overrides = guarded (load source overrides)
  compile : compileGuarded source sourceName overrides =
    guarded (compile source sourceName overrides)
  internal : ∀ f : InternalFault, parseGuarded source ≠ fault f ∧
    loadGuarded source overrides ≠ fault f ∧ compileGuarded source sourceName overrides ≠ fault f

/-- Whatever the source and the overrides are, nothing that is done with them breaks. -/
theorem neverBreaks (source sourceName : String) (overrides : List (String × Cell)) :
    NeverBreaks source sourceName overrides := by
  have hparse := parseGuarded_eq source
  have hload := loadGuarded_eq source overrides
  have hcompile := compileGuarded_eq source sourceName overrides
  refine ⟨hparse, hload, hcompile, fun f => ?_⟩
  rw [hparse, hload, hcompile]
  exact ⟨guarded_ne_internal _ f, guarded_ne_internal _ f, guarded_ne_internal _ f⟩

end MessageSchema
