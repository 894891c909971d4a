import MessageSchema.Generated.Units
import MessageSchema.Source.Evaluate

/-!
# Compiling schemas

`load` reads a source, applies the options in it and then the overrides to the default settings,
and resolves the messages. `compile` goes on to generate the C units.
-/

namespace MessageSchema

open Output Source

/-- Why a source cannot be loaded. -/
inductive LoadError where
  | source (error : SourceError)
  | setting (error : SettingError)
  | resolve (error : ResolveError)

/-- The wording of a load error. -/
def LoadError.message : LoadError → String
  | .source error => error.message
  | .setting error => error.message
  | .resolve error => error.message

/-- A protocol with the settings to generate it under. -/
structure LoadedSchema where
  protocol : Protocol
  settings : Settings

/-- Applies settings in order to the default ones. -/
def settingsOf (options overrides : List (String × Cell)) : Except SettingError Settings := do
  let settings ← ({} : Settings).setAll options
  settings.setAll overrides

/-- Loads a source; overrides are applied after the options of the source. -/
def load (source : String) (overrides : List (String × Cell)) : Except LoadError LoadedSchema := do
  let parsed ← (parse source).mapError .source
  let settings ← (settingsOf parsed.options overrides).mapError .setting
  let protocol ← (Protocol.resolve settings.policy parsed.messages).mapError .resolve
  return ⟨protocol, settings⟩

/-- Why a source cannot be compiled. -/
inductive CompileError where
  | load (error : LoadError)
  | generate (error : Generated.GenerateError)

/-- The wording of a compile error. -/
def CompileError.message : CompileError → String
  | .load error => error.message
  | .generate error => error.message

/-- Compiles a source to its C units. -/
def compile (source sourceName : String) (overrides : List (String × Cell)) :
    Except CompileError (List OutputUnit) := do
  let loaded ← (load source overrides).mapError .load
  (Generated.generate loaded.settings loaded.protocol sourceName).mapError .generate

end MessageSchema
