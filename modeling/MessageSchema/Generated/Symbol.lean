import MessageSchema.Generated.Accessor

/-!
# Symbols of the generated header

Every symbol that the header declares must have one owner. `symbols` lists them in the order in
which they are taken, and `firstClash?` finds the first that an earlier owner has taken.
-/

namespace MessageSchema.Generated

/-- What a symbol names. -/
inductive Owner where
  | discriminantType
  | envelope
  | tag (message : String)
  | record (message : String)
  | accessor (message : String) (accessor : Accessor)
deriving DecidableEq, Repr

/-- The wording of an owner. -/
def Owner.text : Owner → String
  | .discriminantType => "the discriminant type"
  | .envelope => "the envelope record"
  | .tag m => "the tag of `" ++ m ++ "`"
  | .record m => "the record of `" ++ m ++ "`"
  | .accessor m a => "`" ++ m ++ "`'s _" ++ a.ending ++ " function"

/-- A symbol with its owner. -/
structure Symbol where
  text : String
  owner : Owner
deriving DecidableEq, Repr

/-- Two owners of one symbol. -/
structure SymbolClash where
  symbol : String
  first : Owner
  second : Owner
deriving DecidableEq, Repr

/-- The wording of a clash. -/
def SymbolClash.message (c : SymbolClash) : String :=
  "generated symbol `" ++ c.symbol ++ "` is both " ++ c.first.text ++ " and " ++ c.second.text

/-- The symbols of one message: its tag, its record and its functions. -/
def Target.symbols (t : Target) : List Symbol :=
  ⟨t.tag, .tag t.message.name⟩ :: ⟨t.record, .record t.message.name⟩ ::
    Accessor.all.map fun a => ⟨t.accessorName a, .accessor t.message.name a⟩

/-- The symbols of the header in the order in which they are taken. -/
def symbols (s : Settings) (targets : List Target) : List Symbol :=
  ⟨s.typeName, .discriminantType⟩ :: ⟨s.envelopeName, .envelope⟩ ::
    targets.flatMap Target.symbols

/-- `firstClash?` behind the symbols `earlier`, which have different texts. -/
def clashAfter (earlier : List Symbol) : List Symbol → Option SymbolClash
  | [] => none
  | symbol :: rest =>
    match earlier.find? (·.text == symbol.text) with
    | some first => some ⟨symbol.text, first.owner, symbol.owner⟩
    | none => clashAfter (symbol :: earlier) rest

/-- The first symbol that has an earlier owner too. -/
def firstClash? (symbols : List Symbol) : Option SymbolClash :=
  clashAfter [] symbols

end MessageSchema.Generated
