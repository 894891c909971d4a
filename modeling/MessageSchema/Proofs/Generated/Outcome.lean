import Mathlib.Data.List.Induction
import MessageSchema.Generated.Units
import MessageSchema.Proofs.Distinct
import MessageSchema.Proofs.Output.Lines

/-!
# What generation comes to

A protocol without messages has no units. One whose header would declare a symbol twice is refused,
and the error tells of the first symbol that has been declared before. For every other protocol the
units are written. Main statement: `settles_generate`.

- **Clashes** (`FirstClash`): behind symbols that differ the first that does not. It is what the
  scan finds (`FirstClash.firstClash?_eq`), and there is one if any two symbols agree
  (`exists_firstClash`).
- **Scripts** (`unitsOf_unitsScript`): the units are written by scripts that write whole lines, so
  the emitter has no error to report.
-/

namespace MessageSchema.Generated

open Output

/-! ## Clashes -/

/-- The clash of the first symbol that an earlier owner has taken too. -/
def FirstClash (symbols : List Symbol) (clash : SymbolClash) : Prop :=
  ∃ before symbol after, symbols = before ++ symbol :: after ∧ (before.map (·.text)).Nodup ∧
    ∃ first ∈ before, first.text = symbol.text ∧
      clash = ⟨symbol.text, first.owner, symbol.owner⟩

section Clashes

variable {symbols : List Symbol} {clash : SymbolClash}

/-- Symbols that differ from each other and from those before are passed over. -/
theorem clashAfter_append (before mid rest : List Symbol)
    (h : ((before ++ mid).map (·.text)).Nodup) :
    clashAfter before.reverse (mid ++ rest) = clashAfter (before ++ mid).reverse rest := by
  induction mid generalizing before with
  | nil => rw [List.append_nil, List.nil_append]
  | cons symbol mid ih =>
    rw [List.append_cons] at h ⊢
    have hsymbol : symbol.text ∉ before.reverse.map (·.text) := by
      rw [List.map_append, List.map_append] at h
      have hfresh := not_mem_of_nodup_append_cons (by rwa [List.append_assoc] at h)
      rwa [List.map_reverse, List.mem_reverse]
    rw [List.cons_append, clashAfter, find?_key_eq_none Symbol.text hsymbol, ← ih _ h,
      List.reverse_concat]

theorem firstClash?_of_nodup (h : (symbols.map (·.text)).Nodup) : firstClash? symbols = none := by
  have happend := clashAfter_append [] symbols [] h
  rw [List.append_nil] at happend
  exact happend

/-- The scan finds the first clash. -/
theorem FirstClash.firstClash?_eq (h : FirstClash symbols clash) :
    firstClash? symbols = some clash := by
  obtain ⟨before, symbol, after, rfl, hnodup, first, hfirst, htext, rfl⟩ := h
  have happend := clashAfter_append [] before (symbol :: after) hnodup
  have hfind : before.reverse.find? (·.text == symbol.text) = some first := by
    rw [← htext]
    refine find?_key_eq_some Symbol.text ?_ (List.mem_reverse.mpr hfirst)
    rwa [List.map_reverse, List.nodup_reverse]
  refine happend.trans ?_
  rw [List.nil_append, clashAfter, hfind]

/-- Where two symbols agree there is a first clash. -/
theorem exists_firstClash (h : ¬ (symbols.map (·.text)).Nodup) :
    ∃ clash, FirstClash symbols clash := by
  -- from the end of the list: a clash in front of the last symbol stays the first
  induction symbols using List.reverseRecOn with
  | nil => exact absurd List.nodup_nil h
  | append_singleton symbols last ih =>
    by_cases hnodup : (symbols.map (·.text)).Nodup
    · have hmem : last.text ∈ symbols.map (·.text) := by
        by_contra hfresh
        refine h ?_
        rw [List.map_append]
        exact nodup_snoc.mpr ⟨hfresh, hnodup⟩
      obtain ⟨first, hfirst, htext⟩ := List.mem_map.mp hmem
      exact ⟨_, symbols, last, [], rfl, hnodup, first, hfirst, htext, rfl⟩
    · obtain ⟨clash, before, symbol, after, rfl, hrest⟩ := ih hnodup
      exact ⟨clash, before, symbol, after ++ [last], by simp, hrest⟩

/-- The clash that is found is the first one. -/
theorem firstClash?_eq_some : firstClash? symbols = some clash ↔ FirstClash symbols clash := by
  constructor
  · intro h
    by_cases hnodup : (symbols.map (·.text)).Nodup
    · rw [firstClash?_of_nodup hnodup] at h
      cases h
    · obtain ⟨found, hfound⟩ := exists_firstClash hnodup
      rw [hfound.firstClash?_eq] at h
      cases h
      exact hfound
  · exact FirstClash.firstClash?_eq

/-- None is found just if all symbols differ. -/
theorem firstClash?_eq_none : firstClash? symbols = none ↔ (symbols.map (·.text)).Nodup := by
  refine ⟨fun h => ?_, firstClash?_of_nodup⟩
  by_contra hnodup
  obtain ⟨clash, hclash⟩ := exists_firstClash hnodup
  rw [hclash.firstClash?_eq] at h
  cases h

end Clashes

/-! ## Scripts -/

/-- What the header holds in front of the messages. -/
def openingScript (s : Settings) (sourceName : String) (targets : List Target) : List Step :=
  bannerScript sourceName ++ [.write "#pragma once", .blank] ++
    (includedHeaders s (targets.map (·.message))).map (fun h => .write ("#include " ++ h)) ++
    [.blank] ++ enumScript s targets ++ [.blank] ++ envelopeScript s

/-- What the header holds for a message in front of its functions. -/
def recordBlockScript (s : Settings) (t : Target) : List Step :=
  [.blank, .write ("// " ++ t.tag), .blank] ++ recordScript s t ++
    (if s.layoutAsserts then [.write (layoutAssertion s t)] else [])

/-- What the source unit holds in front of the functions. -/
def sourceOpeningScript (s : Settings) (sourceName : String) : List Step :=
  bannerScript sourceName ++ [.write ("#include \"" ++ s.headerName ++ "\"")]

section Scripts

variable (s : Settings) (sourceName : String) (targets : List Target)

/-- What the header holds. -/
def headerBody : List Step :=
  openingScript s sourceName targets ++
    targets.flatMap fun t => recordBlockScript s t ++ functionsScript s (headerForm s) t

/-- What the source unit holds. -/
def sourceBody : List Step :=
  sourceOpeningScript s sourceName ++ targets.flatMap (functionsScript s .definition)

theorem headerScript_eq :
    headerScript s sourceName targets =
      unitScript s.headerName (headerBody s sourceName targets) :=
  rfl

theorem sourceScript_eq :
    sourceScript s sourceName targets =
      unitScript s.sourceName (sourceBody s sourceName targets) :=
  rfl

theorem allWriteLines_structScript (name : String) (declarations : List String) :
    allWriteLines (structScript name declarations) = true := by
  simp [structScript, allWriteLines, Step.writesLines, allWriteLines_map_write]

theorem allWriteLines_definitionScript (lead : String) (f : Function) :
    allWriteLines (f.definitionScript lead) = true := by
  unfold Function.definitionScript
  split <;> simp [allWriteLines, Step.writesLines, allWriteLines_map_write]

theorem allWriteLines_script (form : Form) (f : Function) :
    allWriteLines (f.script form) = true := by
  cases form with
  | inlineWith specifiers => exact allWriteLines_definitionScript _ f
  | declaration => rfl
  | definition => exact allWriteLines_definitionScript _ f

theorem allWriteLines_functionsScript (form : Form) (t : Target) :
    allWriteLines (functionsScript s form t) = true := by
  unfold functionsScript
  dsimp only
  split <;> simp [allWriteLines_append, allWriteLines_script, allWriteLines, Step.writesLines]

theorem allWriteLines_recordBlockScript (t : Target) :
    allWriteLines (recordBlockScript s t) = true := by
  unfold recordBlockScript recordScript
  split <;>
    simp [allWriteLines_append, allWriteLines_structScript, allWriteLines, Step.writesLines]

theorem allWriteLines_openingScript :
    allWriteLines (openingScript s sourceName targets) = true := by
  simp [openingScript, bannerScript, enumScript, envelopeScript, allWriteLines_append,
    allWriteLines_map_write, allWriteLines_structScript, allWriteLines, Step.writesLines]

/-- The header writes whole lines. -/
theorem allWriteLines_headerBody : allWriteLines (headerBody s sourceName targets) = true := by
  simp [headerBody, allWriteLines_append, allWriteLines_openingScript, allWriteLines_flatMap,
    allWriteLines_recordBlockScript, allWriteLines_functionsScript]

/-- So does the second unit. -/
theorem allWriteLines_sourceBody : allWriteLines (sourceBody s sourceName targets) = true := by
  simp [sourceBody, sourceOpeningScript, bannerScript, allWriteLines_flatMap,
    allWriteLines_functionsScript, allWriteLines, Step.writesLines]

end Scripts

section Units

variable (s : Settings) (p : Protocol) (sourceName : String)

/-- The messages of a protocol with their symbols. -/
def targetsOf : List Target :=
  p.entries.map (Target.ofTagged s)

/-- The header of a protocol. -/
def headerUnit : OutputUnit :=
  ⟨s.headerName, textOf s.indent (headerBody s sourceName (targetsOf s p))⟩

/-- The source unit of a protocol. -/
def sourceUnit : OutputUnit :=
  ⟨s.sourceName, textOf s.indent (sourceBody s sourceName (targetsOf s p))⟩

/-- The units of a protocol. -/
def unitsOfProtocol : List OutputUnit :=
  match s.emission with
  | .inHeader => [headerUnit s p sourceName]
  | .split => [headerUnit s p sourceName, sourceUnit s p sourceName]

/-- The emitter has nothing to report. -/
theorem unitsOf_unitsScript :
    unitsOf s.indent (unitsScript s sourceName (targetsOf s p)) =
      .ok (unitsOfProtocol s p sourceName) := by
  have hheader := allWriteLines_headerBody s sourceName (targetsOf s p)
  have hsource := allWriteLines_sourceBody s sourceName (targetsOf s p)
  rw [unitsScript, headerScript_eq, sourceScript_eq, unitsOfProtocol]
  cases s.emission with
  | inHeader =>
    have h := unitsOf_unitScripts s.indent [(s.headerName, headerBody s sourceName (targetsOf s p))]
      (by simp [hheader])
    simpa [headerUnit] using h
  | split =>
    have h := unitsOf_unitScripts s.indent
      [(s.headerName, headerBody s sourceName (targetsOf s p)),
        (s.sourceName, sourceBody s sourceName (targetsOf s p))]
      (by simp [hheader, hsource])
    simpa [headerUnit, sourceUnit] using h

/-- The symbols of the header and what they name, in the order in which the header takes them. -/
def declaredSymbols : List Symbol :=
  [⟨s.typeName, .discriminantType⟩, ⟨s.envelopeName, .envelope⟩] ++
    p.messages.flatMap fun m =>
      let record := s.recordName m.shortName
      [⟨s.tagConstant m.name, .tag m.name⟩, ⟨record, .record m.name⟩,
        ⟨record ++ "_get", .accessor m.name .get⟩, ⟨record ++ "_size", .accessor m.name .size⟩,
        ⟨record ++ "_ctor", .accessor m.name .construct⟩,
        ⟨record ++ "_new", .accessor m.name .create⟩]

/-- The symbols of what is generated are those of the protocol. -/
theorem symbols_targetsOf : symbols s (targetsOf s p) = declaredSymbols s p := by
  have hmessage : ∀ e : TaggedMessage, (Target.ofTagged s e).symbols =
      let record := s.recordName e.message.shortName
      [⟨s.tagConstant e.message.name, .tag e.message.name⟩, ⟨record, .record e.message.name⟩,
        ⟨record ++ "_get", .accessor e.message.name .get⟩,
        ⟨record ++ "_size", .accessor e.message.name .size⟩,
        ⟨record ++ "_ctor", .accessor e.message.name .construct⟩,
        ⟨record ++ "_new", .accessor e.message.name .create⟩] := by
    intro e
    simp only [Target.symbols, Accessor.all, Target.accessorName, Target.ofTagged, List.map_cons,
      List.map_nil, String.append_assoc]
    rfl
  simp [symbols, declaredSymbols, targetsOf, Protocol.messages, List.flatMap_map, hmessage]

/-- What a generation ends with. -/
theorem generate_eq :
    generate s p sourceName =
      if p.entries = [] then .error .noMessages
      else match firstClash? (declaredSymbols s p) with
        | some clash => .error (.symbolClash clash)
        | none => .ok (unitsOfProtocol s p sourceName) := by
  have hempty : (targetsOf s p).isEmpty = true ↔ p.entries = [] := by simp [targetsOf]
  have htargets : p.entries.map (Target.ofTagged s) = targetsOf s p := rfl
  rcases hclash : firstClash? (declaredSymbols s p) with _ | clash <;>
    simp only [generate, htargets, hempty, symbols_targetsOf, hclash, unitsOf_unitsScript]

/-- When units are generated, and which. -/
theorem generate_eq_ok (units : List OutputUnit) :
    generate s p sourceName = .ok units ↔
      p.entries ≠ [] ∧ ((declaredSymbols s p).map (·.text)).Nodup ∧
        units = unitsOfProtocol s p sourceName := by
  rw [generate_eq, ← firstClash?_eq_none]
  by_cases hempty : p.entries = []
  · simp [hempty]
  · rcases firstClash? (declaredSymbols s p) <;> simp [hempty, eq_comm]

/-- When symbols clash, and which. -/
theorem generate_eq_symbolClash (clash : SymbolClash) :
    generate s p sourceName = .error (.symbolClash clash) ↔
      p.entries ≠ [] ∧ FirstClash (declaredSymbols s p) clash := by
  rw [generate_eq, ← firstClash?_eq_some]
  by_cases hempty : p.entries = []
  · simp [hempty]
  · rcases firstClash? (declaredSymbols s p) <;> simp [hempty]

/-- A generation ends with a clash just if there are messages and two symbols agree. -/
theorem exists_symbolClash :
    (∃ clash, generate s p sourceName = .error (.symbolClash clash)) ↔
      p.entries ≠ [] ∧ ¬ ((declaredSymbols s p).map (·.text)).Nodup := by
  simp only [generate_eq_symbolClash, exists_and_left, ← firstClash?_eq_some,
    ← firstClash?_eq_none, ← Option.ne_none_iff_exists']

end Units

/-- The header comes first. -/
theorem exists_rest_of_generate {s : Settings} {p : Protocol} {sourceName : String}
    {units : List OutputUnit} (h : generate s p sourceName = .ok units) :
    ∃ rest, units = headerUnit s p sourceName :: rest := by
  obtain ⟨-, -, rfl⟩ := (generate_eq_ok ..).mp h
  unfold unitsOfProtocol
  cases s.emission <;> exact ⟨_, rfl⟩

/-- What decides how a generation ends. -/
structure Settles (s : Settings) (p : Protocol) (sourceName : String)
    (result : Except GenerateError (List OutputUnit)) : Prop where
  noMessages : result = .error .noMessages ↔ p.entries = []
  clashes : (∃ clash, result = .error (.symbolClash clash)) ↔
    p.entries ≠ [] ∧ ¬ ((declaredSymbols s p).map (·.text)).Nodup
  clash : ∀ clash, result = .error (.symbolClash clash) ↔
    p.entries ≠ [] ∧ FirstClash (declaredSymbols s p) clash
  units : ∀ units, result = .ok units ↔
    p.entries ≠ [] ∧ ((declaredSymbols s p).map (·.text)).Nodup ∧
      units = unitsOfProtocol s p sourceName
  emission : ∀ error, result ≠ .error (.emission error)

/-- A protocol without messages, symbols that clash, or else the units: nothing besides decides how
a generation ends, and the emitter never fails. -/
theorem settles_generate (s : Settings) (p : Protocol) (sourceName : String) :
    Settles s p sourceName (generate s p sourceName) where
  noMessages := by
    rw [generate_eq]
    by_cases hempty : p.entries = []
    · simp [hempty]
    · rcases firstClash? (declaredSymbols s p) <;> simp [hempty]
  clashes := exists_symbolClash s p sourceName
  clash := generate_eq_symbolClash s p sourceName
  units := generate_eq_ok s p sourceName
  emission error := by
    rw [generate_eq]
    by_cases hempty : p.entries = []
    · simp [hempty]
    · rcases firstClash? (declaredSymbols s p) <;> simp [hempty]

end MessageSchema.Generated
