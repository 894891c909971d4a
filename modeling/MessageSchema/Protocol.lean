import MessageSchema.Discriminant
import MessageSchema.Message.Basic

/-!
# Protocols

A `Protocol` is a list of messages that has passed every check, each with its discriminant.
`Protocol.resolve` makes the checks, message by message: names are C identifiers and unique, and
the members of a record clash neither with each other nor with the names that the generated
functions use. Then it assigns the discriminants, which must fit a C `int` and, under the policy
`unique`, differ from each other.
-/

namespace MessageSchema

open Text

/-- Whether two messages may share a discriminant. -/
inductive DiscriminantPolicy where
  | unique
  | permissive
deriving DecidableEq, Repr

/-- The members that every record begins with. -/
def envelopeMembers : List String :=
  ["type", "size"]

/-- The names of parameters and locals of the generated constructors. -/
def constructorNames : List String :=
  ["msg", "out_msg", "allocator", "alloc_result"]

/-- Why a member of a record cannot have its name. -/
inductive MemberClash where
  | envelopeMember
  | constructorName
  | declaredTwice
  | tailCount
deriving DecidableEq, Repr

/-- The wording of a clash. -/
def MemberClash.reason : MemberClash → String
  | .envelopeMember => "shadows an envelope field"
  | .constructorName => "is a reserved constructor name"
  | .declaredTwice => "is declared twice"
  | .tailCount => "clashes with the tail count parameter"

/-- Why messages do not make a protocol. -/
inductive ResolveError where
  | invalidIdentifier (message identifier : String)
  | duplicateName (name : String)
  | duplicateShortName (name : String)
  | memberClash (message member : String) (clash : MemberClash)
  | discriminantOverflow (message : String)
  | discriminantOutOfRange (message : String) (value : Int64)
  | duplicateDiscriminant (value : Int64) (first second : String)
deriving DecidableEq, Repr

/-- The wording of a resolve error. -/
def ResolveError.message : ResolveError → String
  | .invalidIdentifier m i => "message `" ++ m ++ "`: `" ++ i ++ "` is not a valid C identifier"
  | .duplicateName n => "duplicate message name `" ++ n ++ "`"
  | .duplicateShortName n => "duplicate short name `" ++ n ++ "`"
  | .memberClash m f clash => "message `" ++ m ++ "`: field `" ++ f ++ "` " ++ clash.reason
  | .discriminantOverflow m => "message `" ++ m ++ "`: discriminant overflows"
  | .discriminantOutOfRange m v =>
    "message `" ++ m ++ "`: discriminant " ++ toString v.toInt ++ " does not fit a C int"
  | .duplicateDiscriminant v first second =>
    "messages `" ++ first ++ "` and `" ++ second ++ "` share discriminant " ++ toString v.toInt

/-- A message with the discriminant it was given. -/
structure TaggedMessage where
  message : Message
  discriminant : Int64

/-- The messages of a protocol in the order of their declaration. -/
structure Protocol where
  entries : List TaggedMessage

namespace Protocol

/-- Checks the name of one member against the names of the members before it. -/
def checkMember (message : String) (earlier : List String) (name : String) :
    Except ResolveError Unit :=
  if !isIdentifier name then .error (.invalidIdentifier message name)
  else if name ∈ envelopeMembers then .error (.memberClash message name .envelopeMember)
  else if name ∈ constructorNames then .error (.memberClash message name .constructorName)
  else if name ∈ earlier then .error (.memberClash message name .declaredTwice)
  else .ok ()

/-- Checks member names from left to right, behind the names `earlier`. -/
def checkMembersAfter (message : String) (earlier : List String) :
    List String → Except ResolveError Unit
  | [] => .ok ()
  | name :: names => do
    checkMember message earlier name
    checkMembersAfter message (earlier ++ [name]) names

/-- Checks the members of a message, and the count parameter of its tail against them. -/
def checkMembers (m : Message) : Except ResolveError Unit := do
  checkMembersAfter m.name [] m.memberNames
  match m.tail with
  | none => .ok ()
  | some tail =>
    if tail.countParameter ∈ m.memberNames then
      .error (.memberClash m.name tail.countParameter .tailCount)
    else .ok ()

/-- Checks one message against the messages before it. -/
def checkMessage (earlier : List Message) (m : Message) : Except ResolveError Unit :=
  if !isIdentifier m.name then .error (.invalidIdentifier m.name m.name)
  else if !isIdentifier m.shortName then .error (.invalidIdentifier m.name m.shortName)
  else if m.name ∈ earlier.map (·.name) then .error (.duplicateName m.name)
  else if m.shortName ∈ earlier.map (·.shortName) then .error (.duplicateShortName m.shortName)
  else checkMembers m

/-- Checks messages in order, behind the messages `earlier`. -/
def checkMessagesAfter (earlier : List Message) : List Message → Except ResolveError Unit
  | [] => .ok ()
  | m :: ms => do
    checkMessage earlier m
    checkMessagesAfter (earlier ++ [m]) ms

/-- The name of the message at a position. -/
def nameAt (messages : List Message) (index : Nat) : String :=
  (messages[index]?.map (·.name)).getD ""

/-- Whether a discriminant fits a C `int`. -/
def fitsInt (value : Int64) : Bool :=
  -2147483648 ≤ value.toInt && value.toInt ≤ 2147483647

/-- Assigns the discriminants of messages that are valid in themselves. -/
def assignDiscriminants (policy : DiscriminantPolicy) (messages : List Message) :
    Except ResolveError (List TaggedMessage) :=
  match Discriminant.assign (messages.map (·.explicitValue)) with
  | .error overflow => .error (.discriminantOverflow (nameAt messages overflow.index))
  | .ok values =>
    let entries := List.zipWith TaggedMessage.mk messages values
    match entries.find? (fun e => !fitsInt e.discriminant) with
    | some e => .error (.discriminantOutOfRange e.message.name e.discriminant)
    | none =>
      match policy, Discriminant.firstCollision? values with
      | .unique, some (first, second) =>
        .error (.duplicateDiscriminant (values[second]?.getD 0) (nameAt messages first)
          (nameAt messages second))
      | _, _ => .ok entries

/-- Checks messages and assigns their discriminants. -/
def resolve (policy : DiscriminantPolicy) (messages : List Message) :
    Except ResolveError Protocol := do
  checkMessagesAfter [] messages
  return ⟨← assignDiscriminants policy messages⟩

/-- The messages without their discriminants. -/
def messages (p : Protocol) : List Message :=
  p.entries.map (·.message)

/-- The discriminants in the order of the messages. -/
def discriminants (p : Protocol) : List Int64 :=
  p.entries.map (·.discriminant)

/-- The message of a name, with its discriminant. -/
def find? (p : Protocol) (name : String) : Option TaggedMessage :=
  p.entries.find? (·.message.name == name)

/-- The message of a name. -/
def message? (p : Protocol) (name : String) : Option Message :=
  (p.find? name).map (·.message)

/-- The discriminant of the message of a name. -/
def discriminant? (p : Protocol) (name : String) : Option Int64 :=
  (p.find? name).map (·.discriminant)

end Protocol

end MessageSchema
