import MessageSchema.Proofs.Settings.Entries
import MessageSchema.Proofs.Generated.Blocks
import MessageSchema.Proofs.Generated.Constructors
import MessageSchema.Proofs.Text.Identifiers

/-!
# Symbols as identifiers

The names of messages are identifiers, and every symbol of a message is such a name with a text of
the settings in front of it. Nobody looks at these texts. So the symbols of the header are
identifiers just if the texts that the settings put in front of them are (`NamesSymbols`). Main
statement: `declaresIdentifiers_iff`.

- **Declarations** (`Symbol.DeclaredBy`): what declares a symbol in C. All symbols are declared in
  the text of the header (`declared_standsIn_header`).
- **Settings** (`identifiers_iff`): by kind of symbol, with `isIdentifier_append` for the names put
  together; then the settings are read off the entries that they were set by (`SetBy`).
-/

namespace MessageSchema.Generated

open Output Text

/-! ## Declarations -/

/-- The texts that declare a symbol. -/
def Symbol.DeclaredBy (symbol : Symbol) (text : String) : Prop :=
  match symbol.owner with
  | .discriminantType | .envelope | .record _ => text = "\x7d " ++ symbol.text ++ ";"
  | .tag _ => ∃ n : Int, text = symbol.text ++ " = " ++ toString n ++ ","
  | .accessor _ _ => ∃ result parameters,
    text = result ++ " " ++ symbol.text ++ "(" ++ parameters ++ ")"

section Declarations

variable {s : Settings} {p : Protocol} {first mid : List Step} {t : Target} {symbol : Symbol}

/-- The text of a part of a script stands in the text of the script. -/
theorem standsIn_textOf (indent : String) (hfirst : allWriteLines first = true)
    (hmid : allWriteLines mid = true) (last : List Step) :
    StandsIn (textOf indent mid) (textOf indent (first ++ (mid ++ last))) := by
  refine ⟨textOf indent first, textOf indent last, ?_⟩
  rw [textOf_append hfirst, textOf_append hmid, String.append_assoc]

theorem standsIn_write (indent : String) (hfirst : allWriteLines first = true) (line : String)
    (last : List Step) : StandsIn line (textOf indent (first ++ .write line :: last)) := by
  have hline : allWriteLines [.write line] = true := rfl
  have hstands := standsIn_textOf indent hfirst hline last
  rw [textOf_write] at hstands
  exact StandsIn.trans ⟨"", "\n", by rw [String.empty_append]⟩ hstands

/-- A record type gets its name at its end. -/
theorem standsIn_structScript (indent : String) (hfirst : allWriteLines first = true)
    (name : String) (declarations : List String) (last : List Step) :
    StandsIn ("\x7d " ++ name ++ ";")
      (textOf indent (first ++ (structScript name declarations ++ last))) := by
  have hmembers : allWriteLines [.write "typedef struct \x7b",
      .indented (declarations.map fun d => .write (d ++ ";"))] = true := by
    simp [allWriteLines, Step.writesLines, allWriteLines_map_write]
  have hend : StandsIn _ (textOf indent (structScript name declarations)) :=
    standsIn_write indent hmembers ("\x7d " ++ name ++ ";") []
  exact hend.trans
    (standsIn_textOf indent hfirst (allWriteLines_structScript name declarations) last)

/-- What stands behind the enumerators stands in the header. -/
theorem middle_standsIn_header (s : Settings) (p : Protocol) (sourceName : String) :
    StandsIn (textOf s.indent (middleScript s)) (headerUnit s p sourceName).text := by
  rw [headerUnit_eq]
  exact ⟨_, _, rfl⟩

/-- The header has an enumerator for every message. -/
theorem enumerator_standsIn_header (ht : t ∈ targetsOf s p) (sourceName : String) :
    StandsIn (t.tag ++ " = " ++ toString t.discriminant.toInt ++ ",")
      (headerUnit s p sourceName).text := by
  have hmem : (MessageText.ofTarget s t).enumerator ∈ (blocksOf s p).map (·.enumerator) :=
    List.mem_map_of_mem (List.mem_map_of_mem ht)
  have hall : StandsIn (String.join ((blocksOf s p).map (·.enumerator)))
      (headerUnit s p sourceName).text := by
    rw [headerUnit_eq, headerWith]
    exact ⟨_, _, String.append_assoc ..⟩
  exact StandsIn.trans ⟨s.indent, "\n", rfl⟩ ((StandsIn.of_mem_join hmem).trans hall)

/-- The header has the block of every message. -/
theorem block_standsIn_header (ht : t ∈ targetsOf s p) (sourceName : String) :
    StandsIn (textOf s.indent (messageScript s t)) (headerUnit s p sourceName).text := by
  have hblock : (MessageText.ofTarget s t).block = textOf s.indent (messageScript s t) := by
    rw [MessageText.ofTarget]
  have hmem : (MessageText.ofTarget s t).block ∈ (blocksOf s p).map (·.block) :=
    List.mem_map_of_mem (List.mem_map_of_mem ht)
  rw [headerUnit_eq, ← hblock]
  exact (StandsIn.of_mem_join hmem).trans (.behind _ _)

/-- The block of a message ends its struct type with the name of the record. -/
theorem record_standsIn_block (s : Settings) (t : Target) :
    StandsIn ("\x7d " ++ t.record ++ ";") (textOf s.indent (messageScript s t)) := by
  have hfirst : allWriteLines [.blank, .write ("// " ++ t.tag), .blank] = true := rfl
  rw [messageScript, recordScript, List.append_assoc, List.append_assoc]
  exact standsIn_structScript s.indent hfirst _ _ _

/-- A signature is a result type, the name of the function, and parameters in brackets. -/
theorem exists_signature (f : Function) : ∃ result parameters,
    f.signature ++ ")" = result ++ " " ++ f.name ++ "(" ++ parameters ++ ")" :=
  ⟨_, _, rfl⟩

/-- The signature of a function stands in the header, with the definition or without it. -/
theorem signature_standsIn_block (s : Settings) (t : Target) (a : Accessor) :
    StandsIn ((t.function s a).signature ++ ")") (textOf s.indent (messageScript s t)) := by
  have hblock : StandsIn (textOf s.indent (functionsScript s (headerForm s) t))
      (textOf s.indent (messageScript s t)) := by
    have hscript : messageScript s t =
      recordBlockScript s t ++ functionsScript s (headerForm s) t := rfl
    rw [hscript, textOf_append (allWriteLines_recordBlockScript s t)]
    exact .behind _ _
  refine StandsIn.trans ?_ hblock
  -- the header has the definition or the declaration; both begin with the signature
  rcases hemission : s.emission with _ | _
  · have hform : headerForm s = .inlineWith s.inlineSpecifiers := by rw [headerForm, hemission]
    have htext : textOf s.indent (functionsScript s (.inlineWith s.inlineSpecifiers) t) =
      definitionsText s t (s.inlineSpecifiers ++ " ") :=
        textOf_functionsScript_of_definition nofun fun _ => rfl
    rw [hform, htext]
    refine StandsIn.trans ?_ (definitionText_standsIn_definitionsText s t _ a)
    exact ⟨s.inlineSpecifiers ++ " ", (t.function s a).bodyText s.indent,
      by simp only [Function.definitionText, String.append_assoc]⟩
  · have hform : headerForm s = .declaration := by rw [headerForm, hemission]
    have hmem : (t.function s a).declarationText ∈
        Accessor.all.map fun a => (t.function s a).declarationText :=
      List.mem_map_of_mem (mem_accessors a)
    rw [hform, textOf_functionsScript_declaration]
    refine StandsIn.trans ?_ ((StandsIn.of_mem_join hmem).trans (.behind "\n" _))
    refine ⟨"", ";\n", ?_⟩
    rw [String.empty_append, Function.declarationText, String.append_assoc]
    rfl

/-- All symbols are declared in the header. -/
theorem declared_standsIn_header (h : symbol ∈ declaredSymbols s p) (sourceName : String) :
    ∃ text, symbol.DeclaredBy text ∧ StandsIn text (headerUnit s p sourceName).text := by
  rw [← symbols_targetsOf, symbols, List.mem_cons, List.mem_cons, List.mem_flatMap] at h
  -- the type of the discriminants, the envelope, and the symbols of one message
  rcases h with rfl | rfl | ⟨t, ht, hsymbol⟩
  · have hnil : allWriteLines [] = true := rfl
    refine ⟨_, rfl, StandsIn.trans ?_ (middle_standsIn_header s p sourceName)⟩
    exact standsIn_write s.indent hnil _ _
  · have hfirst : allWriteLines [.write ("\x7d " ++ s.typeName ++ ";"), .blank,
        .write "// Every record below starts with `type` and `size` at these offsets."] = true :=
      rfl
    have henvelope := standsIn_structScript s.indent hfirst s.envelopeName
      (envelopeDeclarations s ++ ["char _data[]"]) []
    rw [List.append_nil] at henvelope
    exact ⟨_, rfl, henvelope.trans (middle_standsIn_header s p sourceName)⟩
  · rw [Target.symbols, List.mem_cons, List.mem_cons, List.mem_map] at hsymbol
    rcases hsymbol with rfl | rfl | ⟨a, -, rfl⟩
    · exact ⟨_, ⟨_, rfl⟩, enumerator_standsIn_header ht sourceName⟩
    · exact ⟨_, rfl, (record_standsIn_block s t).trans (block_standsIn_header ht sourceName)⟩
    · obtain ⟨result, parameters, hsignature⟩ := exists_signature (t.function s a)
      rw [name_function] at hsignature
      exact ⟨_, ⟨result, parameters, hsignature⟩,
        (signature_standsIn_block s t a).trans (block_standsIn_header ht sourceName)⟩

end Declarations

/-! ## Texts of the settings -/

/-- Texts of the settings that make identifiers when names of messages are put behind them: the root
of all symbols, and what is set on its own. -/
structure NamesSymbols (root : String) (constantRoot? typeName? envelopeName? : Option String) :
    Prop where
  symbols : root = "" ∨ IsCIdentifier root
  constants : ∀ text ∈ constantRoot?, text = "" ∨ IsCIdentifier text
  type : ∀ text ∈ typeName?, IsCIdentifier text
  envelope : ∀ text ∈ envelopeName?, IsCIdentifier text
  bareEnvelope : envelopeName? = none → root ≠ ""

section Settings

variable {s : Settings} {p : Protocol} {name : String}

/-- The symbol of a short name is an identifier just if the root is one, or empty. -/
theorem isCIdentifier_recordName (hname : IsCIdentifier name) :
    IsCIdentifier (s.recordName name) ↔ s.root = "" ∨ IsCIdentifier s.root := by
  have hbehind : IsCIdentifier ("_" ++ name) :=
    (isCIdentifier_append hname).mpr (.inr (isIdentifier_iff.mp rfl))
  rw [Settings.recordName, String.append_assoc, isCIdentifier_append hbehind]

/-- The constant of a message is an identifier just if its root is one, or empty. -/
theorem isCIdentifier_tagConstant (hname : IsCIdentifier name) :
    IsCIdentifier (s.tagConstant name) ↔ s.constantRoot = "" ∨ IsCIdentifier s.constantRoot := by
  rw [Settings.tagConstant, isCIdentifier_append hname]

/-- In capital letters and with an underscore behind it the root is an identifier if it was one. -/
theorem isCIdentifier_capitals (root : String) :
    IsCIdentifier (upperAscii root ++ "_") ↔ root = "" ∨ IsCIdentifier root := by
  rw [isCIdentifier_append (isIdentifier_iff.mp rfl), upperAscii_eq_empty, ← isIdentifier_iff,
    isIdentifier_upperAscii, isIdentifier_iff]

theorem NamesSymbols.typeName_setting
    (h : NamesSymbols s.root s.constantRoot? s.typeName? s.envelopeName?) :
    IsCIdentifier s.typeName := by
  unfold Settings.typeName
  cases hname : s.typeName? with
  | some text => exact h.type text hname
  | none => exact (isCIdentifier_append (isIdentifier_iff.mp rfl)).mpr h.symbols

theorem NamesSymbols.envelopeName_setting
    (h : NamesSymbols s.root s.constantRoot? s.typeName? s.envelopeName?) :
    IsCIdentifier s.envelopeName := by
  unfold Settings.envelopeName
  cases hname : s.envelopeName? with
  | some text => exact h.envelope text hname
  | none => exact h.symbols.resolve_left (h.bareEnvelope hname)

theorem NamesSymbols.constantRoot_setting
    (h : NamesSymbols s.root s.constantRoot? s.typeName? s.envelopeName?) :
    s.constantRoot = "" ∨ IsCIdentifier s.constantRoot := by
  unfold Settings.constantRoot
  cases hroot : s.constantRoot? with
  | some text => exact h.constants text hroot
  | none => exact .inr ((isCIdentifier_capitals s.root).mpr h.symbols)

/-- A property of all symbols is one of the two types and of those of every message. -/
theorem forall_declaredSymbols {P : String → Prop} :
    (∀ symbol ∈ declaredSymbols s p, P symbol.text) ↔ P s.typeName ∧ P s.envelopeName ∧
      ∀ m ∈ p.messages, P (s.tagConstant m.name) ∧ P (s.recordName m.shortName) ∧
        ∀ ending ∈ ["_get", "_size", "_ctor", "_new"], P (s.recordName m.shortName ++ ending) := by
  have hmessages (symbols : Message → List Symbol) :
      (∀ symbol ∈ p.messages.flatMap symbols, P symbol.text) ↔
        ∀ m ∈ p.messages, ∀ symbol ∈ symbols m, P symbol.text := by
    simp only [List.mem_flatMap, forall_exists_index, and_imp]
    exact ⟨fun h m hm symbol => h symbol m hm, fun h symbol m hm => h m hm symbol⟩
  rw [declaredSymbols, List.forall_mem_append, hmessages]
  simp only [List.forall_mem_cons, List.not_mem_nil, false_implies, implies_true, and_true,
    and_assoc]

/-- The symbols are identifiers just if the texts of the settings make them so. -/
theorem identifiers_iff (hmessages : p.messages ≠ [])
    (hnames : ∀ m ∈ p.messages, IsCIdentifier m.name ∧ IsCIdentifier m.shortName) :
    (∀ symbol ∈ declaredSymbols s p, IsCIdentifier symbol.text) ↔
      NamesSymbols s.root s.constantRoot? s.typeName? s.envelopeName? := by
  rw [forall_declaredSymbols]
  constructor
  · rintro ⟨htype, henvelope, hall⟩
    obtain ⟨m, hm⟩ := List.exists_mem_of_ne_nil _ hmessages
    obtain ⟨hname, hshortName⟩ := hnames m hm
    obtain ⟨htag, hrecord, -⟩ := hall m hm
    have htag := (isCIdentifier_tagConstant hname).mp htag
    refine ⟨(isCIdentifier_recordName hshortName).mp hrecord, fun text htext => ?_,
      fun text htext => ?_, fun text htext => ?_, fun hnone => ?_⟩
    · rwa [Settings.constantRoot, Option.mem_def.mp htext] at htag
    · rwa [Settings.typeName, Option.mem_def.mp htext] at htype
    · rwa [Settings.envelopeName, Option.mem_def.mp htext] at henvelope
    · rw [Settings.envelopeName, hnone] at henvelope
      exact henvelope.ne_empty
  · intro h
    refine ⟨h.typeName_setting, h.envelopeName_setting, fun m hm => ?_⟩
    obtain ⟨hname, hshortName⟩ := hnames m hm
    have hrecord := (isCIdentifier_recordName hshortName).mpr h.symbols
    refine ⟨(isCIdentifier_tagConstant hname).mpr h.constantRoot_setting, hrecord, ?_⟩
    have hendings : ∀ ending ∈ ["_get", "_size", "_ctor", "_new"], isIdentifier ending = true := by
      decide
    intro ending hending
    exact (isCIdentifier_append (isIdentifier_iff.mp (hendings ending hending))).mpr (.inr hrecord)

end Settings

section Compile

variable {source sourceName : String} {entries overrides : List (String × Cell)}
  {units : List OutputUnit}

/-- What settings name symbols by is what the last entries with these keys say. -/
theorem namesSymbols_of_setBy {t : Settings} (h : Settings.SetBy {} entries t) :
    NamesSymbols t.root t.constantRoot? t.typeName? t.envelopeName? ↔
      NamesSymbols (Settings.rootAfter {} entries) (Settings.lastText? entries "enum_prefix")
        (Settings.lastText? entries "type_name") (Settings.lastText? entries "envelope_name") := by
  have hown {k : SettingKey} (hform : k.form = .text) (hnone : ({} : Settings).text? k = none) :
      t.text? k = Settings.lastText? entries k.name := by
    rw [h.text?_eq hform, hnone, Option.or_none]
  have hconstants : t.constantRoot?.bind some = Settings.lastText? entries "enum_prefix" :=
    hown (k := .constantRoot) rfl rfl
  have htype : t.typeName?.bind some = Settings.lastText? entries "type_name" :=
    hown (k := .typeName) rfl rfl
  have henvelope : t.envelopeName?.bind some = Settings.lastText? entries "envelope_name" :=
    hown (k := .envelopeName) rfl rfl
  rw [Option.bind_fun_some] at hconstants htype henvelope
  rw [h.root_eq, hconstants, htype, henvelope]

/-- What the header of a compiled source declares: all symbols, each in a text of its own, and
identifiers or not by what the options and the overrides put in front of the names. -/
structure DeclaresSymbols (parsed : Source.SchemaSource) (overrides : List (String × Cell))
    (loaded : LoadedSchema) (units : List OutputUnit) : Prop where
  declared : ∃ header rest, units = header :: rest ∧
    ∀ symbol ∈ declaredSymbols loaded.settings loaded.protocol,
      ∃ text, symbol.DeclaredBy text ∧ StandsIn text header.text
  identifiers : (∀ symbol ∈ declaredSymbols loaded.settings loaded.protocol,
      IsCIdentifier symbol.text) ↔
    NamesSymbols (Settings.rootAfter {} (parsed.options ++ overrides))
      (Settings.lastText? (parsed.options ++ overrides) "enum_prefix")
      (Settings.lastText? (parsed.options ++ overrides) "type_name")
      (Settings.lastText? (parsed.options ++ overrides) "envelope_name")

/-- The header of a compiled source declares identifiers just if the texts that its options and the
overrides name symbols by are identifiers, or empty where a name stands behind them. -/
theorem declaresIdentifiers_iff (h : compile source sourceName overrides = .ok units) :
    ∃ parsed loaded, Source.parse source = .ok parsed ∧ load source overrides = .ok loaded ∧
      generate loaded.settings loaded.protocol sourceName = .ok units ∧
      DeclaresSymbols parsed overrides loaded units := by
  obtain ⟨loaded, hload, hunits⟩ := exists_generate_of_compile h
  obtain ⟨parsed, hparse, -, hresolve⟩ := load_eq_ok.mp hload
  obtain ⟨hentries, -, -⟩ := (generate_eq_ok ..).mp hunits
  refine ⟨parsed, loaded, hparse, hload, hunits, ?_, ?_⟩
  · obtain ⟨rest, hrest⟩ := exists_rest_of_generate hunits
    exact ⟨_, rest, hrest, fun symbol hsymbol => declared_standsIn_header hsymbol sourceName⟩
  · have hset : Settings.SetBy {} (parsed.options ++ overrides) loaded.settings :=
      Settings.setBy_of_setAll (Settings.setAll_of_load hparse hload)
    obtain ⟨hvalid, hmessages, -⟩ := Protocol.resolve_eq_ok.mp hresolve
    have hnames : ∀ m ∈ loaded.protocol.messages,
        IsCIdentifier m.name ∧ IsCIdentifier m.shortName := by
      intro m hm
      have hm := hvalid.valid m (hmessages ▸ hm)
      exact ⟨hm.name, hm.shortName⟩
    have hnonempty : loaded.protocol.messages ≠ [] := by
      rw [Protocol.messages, Ne, List.map_eq_nil_iff]
      exact hentries
    rw [identifiers_iff hnonempty hnames, namesSymbols_of_setBy hset]

/-! ## Two roots -/

/-- A schema of one message whose symbols begin with a text. -/
def rootedSource (root : String) : String :=
  "options \x7b prefix = \"" ++ root ++ "\"; \x7d\n" ++
    "table (name, shortname) \x7b (\"PING\", \"ping\") \x7d\n"

/-- The texts that a source and the overrides name symbols by. -/
def namingTexts? (source : String) (overrides : List (String × Cell)) :
    Option (String × List (Option String)) :=
  (Source.parse source).toOption.map fun parsed =>
    let entries := parsed.options ++ overrides
    (Settings.rootAfter {} entries,
      ["enum_prefix", "type_name", "envelope_name"].map (Settings.lastText? entries))

/-- The texts of the symbols that the header of a source declares. -/
def symbolTexts? (source : String) : Option (List String) :=
  (load source []).toOption.map fun loaded =>
    (declaredSymbols loaded.settings loaded.protocol).map (·.text)

/-- The root is set in the source, and an override leaves the constants without one. -/
theorem declaresIdentifiers_ping : ∃ units loaded,
    compile (rootedSource "rpc") "ping.schema" [("enum_prefix", .text "")] = .ok units ∧
      load (rootedSource "rpc") [("enum_prefix", .text "")] = .ok loaded ∧
      ∀ symbol ∈ declaredSymbols loaded.settings loaded.protocol, IsCIdentifier symbol.text := by
  have hcompile : (compile (rootedSource "rpc") "ping.schema"
      [("enum_prefix", .text "")]).toOption.map List.length = some 1 := by decide +kernel
  have htexts : namingTexts? (rootedSource "rpc") [("enum_prefix", .text "")] =
      some ("rpc", [some "", none, none]) := by decide +kernel
  obtain ⟨units, hunits, -⟩ := exists_of_toOption_map hcompile
  obtain ⟨parsed, loaded, hparse, hload, -, hdeclares⟩ := declaresIdentifiers_iff hunits
  obtain ⟨other, hother, htexts⟩ := exists_of_toOption_map htexts
  cases hparse.symm.trans hother
  simp only [Prod.mk.injEq, List.map_cons, List.map_nil, List.cons.injEq, and_true] at htexts
  obtain ⟨hroot, hconstants, htype, henvelope⟩ := htexts
  refine ⟨units, loaded, hunits, hload, hdeclares.identifiers.mpr ?_⟩
  rw [hroot, hconstants, htype, henvelope]
  exact ⟨.inr (isIdentifier_iff.mp rfl), by simp, nofun, nofun, fun _ => by decide⟩

/-- A root with a hyphen is accepted, and no symbol of the header is an identifier. -/
theorem not_declaresIdentifiers_hyphen : ∃ units loaded,
    compile (rootedSource "rpc-msg") "ping.schema" [] = .ok units ∧
      load (rootedSource "rpc-msg") [] = .ok loaded ∧
      ∀ symbol ∈ declaredSymbols loaded.settings loaded.protocol, ¬ IsCIdentifier symbol.text ∧
        ∃ header ∈ units, ∃ text, symbol.DeclaredBy text ∧ StandsIn text header.text := by
  have hcompile : (compile (rootedSource "rpc-msg") "ping.schema" []).toOption.map List.length =
      some 1 := by decide +kernel
  have htexts : symbolTexts? (rootedSource "rpc-msg") = some ["rpc-msg_type", "rpc-msg",
      "RPC-MSG_PING", "rpc-msg_ping", "rpc-msg_ping_get", "rpc-msg_ping_size",
      "rpc-msg_ping_ctor", "rpc-msg_ping_new"] := by decide +kernel
  obtain ⟨units, hunits, -⟩ := exists_of_toOption_map hcompile
  obtain ⟨loaded, hload, hgenerate⟩ := exists_generate_of_compile hunits
  obtain ⟨other, hother, htexts⟩ := exists_of_toOption_map htexts
  cases hload.symm.trans hother
  refine ⟨units, loaded, hunits, hload, fun symbol hsymbol => ⟨?_, ?_⟩⟩
  · have htext : symbol.text ∈ _ := htexts ▸ List.mem_map_of_mem hsymbol
    have hnone : ["rpc-msg_type", "rpc-msg", "RPC-MSG_PING", "rpc-msg_ping", "rpc-msg_ping_get",
        "rpc-msg_ping_size", "rpc-msg_ping_ctor", "rpc-msg_ping_new"].all
          (!isIdentifier ·) = true := by decide
    have hnot := List.all_eq_true.mp hnone _ htext
    rw [← isIdentifier_iff]
    simpa using hnot
  · obtain ⟨rest, rfl⟩ := exists_rest_of_generate hgenerate
    exact ⟨_, List.mem_cons_self, declared_standsIn_header hsymbol "ping.schema"⟩

end Compile

end MessageSchema.Generated
