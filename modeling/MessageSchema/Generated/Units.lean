import MessageSchema.Generated.Symbol
import MessageSchema.Text

/-!
# Generated units

`generate` writes the C units of a protocol. The header holds the includes, the discriminant type,
the envelope, and for each message its record, an assertion on its layout and its functions. Under
the emission `split` the header only declares the functions and a source unit defines them.
-/

namespace MessageSchema.Generated

open Output

/-- Why no units are generated. -/
inductive GenerateError where
  | noMessages
  | symbolClash (clash : SymbolClash)
  | emission (error : EmitError)
deriving DecidableEq, Repr

/-- The wording of a generation error. -/
def GenerateError.message : GenerateError → String
  | .noMessages => "schema has no messages"
  | .symbolClash clash => clash.message
  | .emission error => error.message

/-- Whether a word is taken for a type of the header `<stdint.h>`. -/
def isStdintWord (word : List Char) : Bool :=
  word == "intptr_t".toList || word == "uintptr_t".toList ||
    ("_t".toList.isSuffixOf word &&
      ("int".toList.isPrefixOf word || "uint".toList.isPrefixOf word))

/-- The words of the types that the members of the messages have. -/
def typeWords (messages : List Message) : List (List Char) :=
  (messages.flatMap Message.memberTypes).flatMap fun type =>
    Text.runs Text.isWordChar type.toList

/-- The standard headers that the generated C relies on. -/
def requiredHeaders (messages : List Message) : List String :=
  let words := typeWords messages
  ["<stddef.h>"] ++
    (if words.any isStdintWord then ["<stdint.h>"] else []) ++
    (if words.any (· == "bool".toList) then ["<stdbool.h>"] else []) ++
    (if messages.any Message.isVariable then ["<string.h>"] else [])

/-- The headers to include: the required ones that the settings do not list, then the listed. -/
def includedHeaders (s : Settings) (messages : List Message) : List String :=
  (requiredHeaders messages).filter (fun h => !s.includes.contains h) ++ s.includes

/-! ## Types -/

/-- What every unit begins with. -/
def bannerScript (sourceName : String) : List Step :=
  [.write ("// Generated by ipcmsgc from " ++ sourceName ++ ". Do not edit."), .blank]

/-- The discriminant type. -/
def enumScript (s : Settings) (targets : List Target) : List Step :=
  [.write "typedef enum \x7b",
    .indented (targets.map fun t =>
      .write (t.tag ++ " = " ++ toString t.discriminant.toInt ++ ",")),
    .write ("\x7d " ++ s.typeName ++ ";")]

/-- The declarations of the members that every record begins with. -/
def envelopeDeclarations (s : Settings) : List String :=
  [s.typeName ++ " type", "size_t size"]

/-- A record type with the given member declarations. -/
def structScript (name : String) (declarations : List String) : List Step :=
  [.write "typedef struct \x7b",
    .indented (declarations.map fun d => .write (d ++ ";")),
    .write ("\x7d " ++ name ++ ";")]

/-- The envelope: the common members and opaque data. -/
def envelopeScript (s : Settings) : List Step :=
  .write "// Every record below starts with `type` and `size` at these offsets." ::
    structScript s.envelopeName (envelopeDeclarations s ++ ["char _data[]"])

/-- The declarations of a message's members behind the common ones. -/
def memberDeclarations (m : Message) : List String :=
  m.fields.map (·.declaration) ++
    (m.tail.map fun tail => tail.elementType ++ " " ++ tail.name ++ "[]").toList

/-- The record of a message. -/
def recordScript (s : Settings) (t : Target) : List Step :=
  structScript t.record (envelopeDeclarations s ++ memberDeclarations t.message)

/-- The assertion that a record begins as the envelope does. -/
def layoutAssertion (s : Settings) (t : Target) : String :=
  let envelope := s.envelopeName
  "_Static_assert(offsetof(" ++ t.record ++ ", type) == offsetof(" ++ envelope ++ ", type)" ++
    " && offsetof(" ++ t.record ++ ", size) == offsetof(" ++ envelope ++ ", size), \"" ++
    t.record ++ " must start with the " ++ envelope ++ " prefix\");"

/-- The functions of a message in the given form; definitions have empty lines between them. -/
def functionsScript (s : Settings) (form : Form) (t : Target) : List Step :=
  let gap : List Step := if form = .declaration then [] else [.blank]
  [.blank] ++ (t.function s .get).script form ++ (t.function s .size).script form ++ gap ++
    (t.function s .construct).script form ++ gap ++ (t.function s .create).script form

/-! ## Units -/

/-- The form in which the header holds the functions. -/
def headerForm (s : Settings) : Form :=
  match s.emission with
  | .inHeader => .inlineWith s.inlineSpecifiers
  | .split => .declaration

/-- What the header holds for one message. -/
def messageScript (s : Settings) (t : Target) : List Step :=
  [.blank, .write ("// " ++ t.tag), .blank] ++ recordScript s t ++
    (if s.layoutAsserts then [.write (layoutAssertion s t)] else []) ++
    functionsScript s (headerForm s) t

/-- The header unit. -/
def headerScript (s : Settings) (sourceName : String) (targets : List Target) : List Step :=
  [.openUnit s.headerName] ++ bannerScript sourceName ++
    [.write "#pragma once", .blank] ++
    (includedHeaders s (targets.map (·.message))).map (fun h => .write ("#include " ++ h)) ++
    [.blank] ++ enumScript s targets ++ [.blank] ++ envelopeScript s ++
    targets.flatMap (messageScript s) ++ [.closeUnit]

/-- The source unit. -/
def sourceScript (s : Settings) (sourceName : String) (targets : List Target) : List Step :=
  [.openUnit s.sourceName] ++ bannerScript sourceName ++
    [.write ("#include \"" ++ s.headerName ++ "\"")] ++
    targets.flatMap (functionsScript s .definition) ++ [.closeUnit]

/-- All units. -/
def unitsScript (s : Settings) (sourceName : String) (targets : List Target) : List Step :=
  headerScript s sourceName targets ++
    match s.emission with
    | .inHeader => []
    | .split => sourceScript s sourceName targets

/-- Generates the C units of a protocol; `sourceName` is the schema they are said to come from. -/
def generate (s : Settings) (p : Protocol) (sourceName : String) :
    Except GenerateError (List OutputUnit) :=
  let targets := p.entries.map (Target.ofTagged s)
  if targets.isEmpty then .error .noMessages
  else
    match firstClash? (symbols s targets) with
    | some clash => .error (.symbolClash clash)
    | none =>
      match unitsOf s.indent (unitsScript s sourceName targets) with
      | .error error => .error (.emission error)
      | .ok units => .ok units

end MessageSchema.Generated
