import MessageSchema.Cell
import MessageSchema.Protocol

/-!
# Settings

`Settings` are the spellings and switches of the generated C. Names that are not set on their own
follow from the root of all symbols. `Settings.set` changes one setting by its key;
`Settings.setAll` goes through a list in order, so the last entry of a key wins.
-/

namespace MessageSchema

/-- What the size member of a record with a tail counts. -/
inductive SizeMeaning where
  /-- All bytes of the record. -/
  | bytes
  /-- The bytes of the record without its tail, plus the number of tail elements. -/
  | legacy
deriving DecidableEq, Repr

/-- Where the generated functions are defined. -/
inductive Emission where
  /-- In the header, as inline functions. -/
  | inHeader
  /-- In a source unit of their own; the header declares them. -/
  | split
deriving DecidableEq, Repr

/-- The spellings and switches of the generated C. -/
structure Settings where
  root : String := "gh_ipcmsg"
  constantRoot? : Option String := none
  typeName? : Option String := none
  envelopeName? : Option String := none
  headerName? : Option String := none
  sourceName? : Option String := none
  resultType : String := "gh_result"
  okCode : String := "GHR_OK"
  constructFailed : String := "ghr_errno(GHR_IPC_MSGNEWFAIL)"
  allocatorType : String := "gh_alloc"
  allocFunction : String := "gh_alloc_new"
  includes : List String := ["<stddef.h>", "<string.h>", "<ghost/result.h>", "<ghost/alloc.h>"]
  indent : String := "    "
  inlineSpecifiers : String := "__attribute__((always_inline)) static inline"
  emission : Emission := .inHeader
  sizeMeaning : SizeMeaning := .bytes
  policy : DiscriminantPolicy := .unique
  layoutAsserts : Bool := true

/-- What the cell of a setting must be. -/
inductive SettingForm where
  | text
  | bool
  | texts
  | emission
  | sizeMeaning
  | policy
deriving DecidableEq, Repr

/-- The wording of an expected form. -/
def SettingForm.expected : SettingForm → String
  | .text => "a string"
  | .bool => "true or false"
  | .texts => "a list of strings"
  | .emission => "\"inline\" or \"split\""
  | .sizeMeaning => "\"bytes\" or \"legacy\""
  | .policy => "\"unique\" or \"permissive\""

/-- Why a setting cannot be changed. -/
inductive SettingError where
  | unknownKey (key : String)
  | invalidCell (key : String) (expected : SettingForm)
deriving DecidableEq, Repr

/-- The wording of a setting error. -/
def SettingError.message : SettingError → String
  | .unknownKey key => "unknown option `" ++ key ++ "`"
  | .invalidCell key form => "option `" ++ key ++ "` expects " ++ form.expected

/-- The emission that a word stands for. -/
def Emission.ofWord? : String → Option Emission
  | "inline" => some .inHeader
  | "split" => some .split
  | _ => none

/-- The meaning that a word stands for. -/
def SizeMeaning.ofWord? : String → Option SizeMeaning
  | "bytes" => some .bytes
  | "legacy" => some .legacy
  | _ => none

/-- The policy that a word stands for. -/
def DiscriminantPolicy.ofWord? : String → Option DiscriminantPolicy
  | "unique" => some .unique
  | "permissive" => some .permissive
  | _ => none

namespace Settings

/-- What the name of every discriminant constant begins with. -/
def constantRoot (s : Settings) : String :=
  s.constantRoot?.getD (Text.upperAscii s.root ++ "_")

/-- The name of the discriminant type. -/
def typeName (s : Settings) : String :=
  s.typeName?.getD (s.root ++ "_type")

/-- The name of the envelope record. -/
def envelopeName (s : Settings) : String :=
  s.envelopeName?.getD s.root

/-- The name of the header unit. -/
def headerName (s : Settings) : String :=
  s.headerName?.getD (s.root ++ "_type.h")

/-- The name of the source unit. -/
def sourceName (s : Settings) : String :=
  s.sourceName?.getD (s.root ++ "_type.c")

/-- The record of a message, by its short name; the message's functions are named after it. -/
def recordName (s : Settings) (shortName : String) : String :=
  s.root ++ "_" ++ shortName

/-- The discriminant constant of a message, by its name. -/
def tagConstant (s : Settings) (name : String) : String :=
  s.constantRoot ++ name

/-- Reads the cell of a setting, or reports what the setting expects. -/
def read {α : Type} (key : String) (form : SettingForm) (value : Option α) :
    Except SettingError α :=
  match value with
  | some a => .ok a
  | none => .error (.invalidCell key form)

/-- Changes the setting of a key. -/
def set (s : Settings) (key : String) (cell : Cell) : Except SettingError Settings :=
  let text := read key .text cell.text?
  match key with
  | "prefix" => text.map ({ s with root := · })
  | "enum_prefix" => text.map ({ s with constantRoot? := some · })
  | "type_name" => text.map ({ s with typeName? := some · })
  | "envelope_name" => text.map ({ s with envelopeName? := some · })
  | "header_name" => text.map ({ s with headerName? := some · })
  | "source_name" => text.map ({ s with sourceName? := some · })
  | "result_type" => text.map ({ s with resultType := · })
  | "ok_code" => text.map ({ s with okCode := · })
  | "construct_failed" => text.map ({ s with constructFailed := · })
  | "allocator_type" => text.map ({ s with allocatorType := · })
  | "alloc_fn" => text.map ({ s with allocFunction := · })
  | "indent" => text.map ({ s with indent := · })
  | "inline_attr" => text.map ({ s with inlineSpecifiers := · })
  | "layout_asserts" => (read key .bool cell.bool?).map ({ s with layoutAsserts := · })
  | "include" => (read key .texts cell.texts?).map ({ s with includes := · })
  | "emit_mode" =>
    (read key .emission (cell.text?.bind Emission.ofWord?)).map ({ s with emission := · })
  | "size_field" =>
    (read key .sizeMeaning (cell.text?.bind SizeMeaning.ofWord?)).map
      ({ s with sizeMeaning := · })
  | "discriminants" =>
    (read key .policy (cell.text?.bind DiscriminantPolicy.ofWord?)).map ({ s with policy := · })
  | other => .error (.unknownKey other)

/-- Changes settings in order; the first entry that is not valid decides the error. -/
def setAll (s : Settings) (entries : List (String × Cell)) : Except SettingError Settings :=
  entries.foldlM (fun s (key, cell) => s.set key cell) s

end Settings

end MessageSchema
