import MessageSchema.Memory.Scalar

/-!
# Command-line arguments

`Request.ofArguments?` reads the arguments of the program: a command with its options and operands.
Options may stand anywhere behind their command, a value stands behind its option or is attached to
it, short options can be run together, and behind `--` everything is an operand. Arguments that
make no request have none.
-/

namespace MessageSchema.Command

open Memory

/-- The options of the program. -/
inductive OptionName where
  | verbose
  | version
  | help
  | outDir
  | stdout
  | split
  | legacySizeField
  | permissiveDiscriminants
  | symbolRoot
  | model
deriving DecidableEq, Repr

/-- How an option is spelled, and whether a value belongs to it. -/
structure OptionForm where
  name : OptionName
  short : Option Char
  long : String
  takesValue : Bool
deriving DecidableEq, Repr

/-- The options that may stand behind every command. -/
def commonForms : List OptionForm :=
  [⟨.verbose, some 'v', "verbose", false⟩, ⟨.help, some 'h', "help", false⟩]

/-- The options in front of a command. -/
def programForms : List OptionForm :=
  ⟨.version, some 'V', "version", false⟩ :: commonForms

/-- The options of the command `generate`. -/
def generateForms : List OptionForm :=
  [⟨.outDir, some 'o', "out-dir", true⟩, ⟨.stdout, none, "stdout", false⟩,
    ⟨.split, none, "split", false⟩, ⟨.legacySizeField, none, "legacy-size-field", false⟩,
    ⟨.permissiveDiscriminants, none, "permissive-discriminants", false⟩,
    ⟨.symbolRoot, none, "prefix", true⟩] ++ commonForms

/-- The options of the command `describe`. -/
def describeForms : List OptionForm :=
  ⟨.model, none, "model", true⟩ :: commonForms

/-- What arguments consist of. -/
inductive Part where
  | flag (name : OptionName)
  | value (name : OptionName) (text : String)
  | operand (text : String)
  | malformed
deriving DecidableEq, Repr

/-- The parts of one argument, and the option whose value the next argument must be. -/
structure ArgumentParts where
  parts : List Part
  waiting : Option OptionName := none

/-- An argument that is malformed. -/
def ArgumentParts.bad : ArgumentParts :=
  { parts := [.malformed] }

/-- A long option, without the dashes: `name` or `name=value`. -/
def longOption (forms : List OptionForm) (text : List Char) : ArgumentParts :=
  let name := text.takeWhile (· != '=')
  match forms.find? (·.long.toList == name), text.drop name.length with
  | none, _ => .bad
  | some form, [] =>
    if form.takesValue then { parts := [], waiting := some form.name }
    else { parts := [.flag form.name] }
  | some form, _ :: value =>
    if form.takesValue then { parts := [.value form.name (String.ofList value)] } else .bad

/-- Short options run together, without the dash; the rest of the argument is the value of the
first that takes one, with or without an equals sign in front. -/
def shortOptions (forms : List OptionForm) : List Char → ArgumentParts
  | [] => { parts := [] }
  | c :: cs =>
    match forms.find? (·.short == some c) with
    | none => .bad
    | some form =>
      if form.takesValue then
        match cs with
        | [] => { parts := [], waiting := some form.name }
        | '=' :: value => { parts := [.value form.name (String.ofList value)] }
        | value => { parts := [.value form.name (String.ofList value)] }
      else
        let rest := shortOptions forms cs
        { rest with parts := .flag form.name :: rest.parts }

/-- The parts of one argument that is no value. -/
def argumentParts (forms : List OptionForm) (argument : String) : ArgumentParts :=
  match argument.toList with
  | '-' :: '-' :: text => longOption forms text
  | '-' :: c :: cs => shortOptions forms (c :: cs)
  | _ => { parts := [.operand argument] }

/-- Whether an argument is an option and not a value; a single dash is a value. -/
def isOption (argument : String) : Bool :=
  match argument.toList with
  | '-' :: _ :: _ => true
  | _ => false

/-- The parts of arguments, behind an option that waits for its value if there is one. -/
def partsOf (forms : List OptionForm) : Option OptionName → List String → List Part
  | none, [] => []
  | some _, [] => [.malformed]
  | some name, argument :: rest =>
    if isOption argument then [.malformed] else .value name argument :: partsOf forms none rest
  | none, argument :: rest =>
    if argument == "--" then rest.map .operand
    else
      let first := argumentParts forms argument
      first.parts ++ partsOf forms first.waiting rest

/-- What the command `generate` is asked to do. -/
structure GenerateRequest where
  schema : Option String := none
  outDir : Option String := none
  symbolRoot : Option String := none
  stdout : Bool := false
  split : Bool := false
  legacySizeField : Bool := false
  permissiveDiscriminants : Bool := false
deriving DecidableEq, Repr

/-- What the command `describe` is asked to do. -/
structure DescribeRequest where
  schema : Option String := none
  model : Option DataModel := none
deriving DecidableEq, Repr

/-- What the program is asked to do. -/
inductive Request where
  | generate (schema : String) (options : GenerateRequest)
  | describe (schema : String) (model : DataModel)
  | version
  | help
deriving DecidableEq, Repr

/-- A path operand or value; it may not be empty. -/
def path? (text : String) : Option String :=
  if text.isEmpty then none else some text

/-- Sets what has not been set yet. -/
def setOnce {α : Type} (old : Option α) (new : Option α) : Option (Option α) :=
  match old, new with
  | none, some a => some (some a)
  | _, _ => none

/-- Raises a flag that has not been raised yet. -/
def raiseOnce (flag : Bool) : Option Bool :=
  if flag then none else some true

namespace GenerateRequest

/-- Enters a part into the request, if it fits. -/
def enter (r : GenerateRequest) : Part → Option GenerateRequest
  | .operand text => (setOnce r.schema (path? text)).map ({ r with schema := · })
  | .value .outDir text => (setOnce r.outDir (path? text)).map ({ r with outDir := · })
  | .value .symbolRoot text => (setOnce r.symbolRoot (some text)).map ({ r with symbolRoot := · })
  | .flag .stdout => (raiseOnce r.stdout).map ({ r with stdout := · })
  | .flag .split => (raiseOnce r.split).map ({ r with split := · })
  | .flag .legacySizeField => (raiseOnce r.legacySizeField).map ({ r with legacySizeField := · })
  | .flag .permissiveDiscriminants =>
    (raiseOnce r.permissiveDiscriminants).map ({ r with permissiveDiscriminants := · })
  | .flag .verbose => some r
  | _ => none

/-- The complete request: with a schema, and with one place at most for the output. -/
def complete (r : GenerateRequest) : Option Request :=
  if r.stdout && r.outDir.isSome then none else r.schema.map (.generate · r)

end GenerateRequest

namespace DescribeRequest

/-- The data model of a name. -/
def model? : String → Option DataModel
  | "lp64" => some .lp64
  | "ilp32" => some .ilp32
  | _ => none

/-- Enters a part into the request, if it fits. -/
def enter (r : DescribeRequest) : Part → Option DescribeRequest
  | .operand text => (setOnce r.schema (path? text)).map ({ r with schema := · })
  | .value .model text => (setOnce r.model (model? text)).map ({ r with model := · })
  | .flag .verbose => some r
  | _ => none

/-- The complete request: with a schema. -/
def complete (r : DescribeRequest) : Option Request :=
  r.schema.map (.describe · (r.model.getD .lp64))

end DescribeRequest

/-- Goes through the parts behind a command; the request for help ends the reading. -/
def readParts {α : Type} (enter : α → Part → Option α) (complete : α → Option Request)
    (r : α) : List Part → Option Request
  | [] => complete r
  | .flag .help :: _ => some .help
  | part :: parts => (enter r part).bind fun r => readParts enter complete r parts

/-- Whether there is help on what stands behind the command `help`: on nothing in particular, or on
one command. -/
def isHelpTopic (arguments : List String) : Bool :=
  arguments.isEmpty || [["generate"], ["describe"], ["help"]].contains arguments

/-- The request of a command with its arguments. -/
def commandRequest? (command : String) (arguments : List String) : Option Request :=
  match command with
  | "generate" =>
    readParts GenerateRequest.enter GenerateRequest.complete {}
      (partsOf generateForms none arguments)
  | "describe" =>
    readParts DescribeRequest.enter DescribeRequest.complete {}
      (partsOf describeForms none arguments)
  | "help" => if isHelpTopic arguments then some .help else none
  | _ => none

/-- Goes through options in front of the command: the request that they make, or none; the outer
`none` goes on to the next argument. -/
def programOptions : List Part → Option (Option Request)
  | [] => none
  | .flag .verbose :: parts => programOptions parts
  | .flag .version :: _ => some (some .version)
  | .flag .help :: _ => some (some .help)
  | _ => some none

/-- The request that the arguments make, if they make one. -/
def Request.ofArguments? : List String → Option Request
  | [] => none
  | argument :: rest =>
    if isOption argument then
      match programOptions (argumentParts programForms argument).parts with
      | some request => request
      | none => ofArguments? rest
    else commandRequest? argument rest

end MessageSchema.Command
