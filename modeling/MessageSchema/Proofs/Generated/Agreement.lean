import Mathlib.Data.List.Flatten
import MessageSchema.Proofs.Generated.Outcome

/-!
# Both emissions

With the functions in the header, or declared in the header and defined in a source unit, a protocol
is written with the same text. `SameText` takes the three units apart into an opening, the records
and the functions of the messages. Main statement: `sameText_generate`.

- **Functions** (`definitionText`, `declarationText`): a definition is a lead, the signature and the
  body, a declaration the signature and a semicolon (`textOf_definitionScript`,
  `textOf_declaration`).
- **Messages** (`definitionsText`, `declarationsText`): each of the four functions once, definitions
  with empty lines between them.
- **Units** (`headerUnit_inHeader`, `headerUnit_split`, `sourceUnit_split`): an opening, and for
  each message what stands in front of its functions and the functions. Only their texts depend on
  where they are defined.
-/

namespace MessageSchema.Generated

open Output

namespace Function

/-- What stands behind the parenthesis that closes a signature. -/
def bodyText (indent : String) (f : Function) : String :=
  match f.body with
  | .line statement => " \x7b " ++ statement.render ++ " \x7d\n"
  | .block statements =>
    " \x7b\n" ++ String.join (statements.map fun x => textOfLine indent [⟨1, x.render⟩]) ++ "\x7d\n"

/-- The lines of the body of a function. -/
def lines (f : Function) : List String :=
  f.body.statements.map (·.render)

/-- A block of lines behind a signature. -/
def blockText (indent : String) (lines : List String) : String :=
  " \x7b\n" ++ String.join (lines.map fun line => indent ++ line ++ "\n") ++ "\x7d\n"

/-- A definition with `lead` in front of its signature. -/
def definitionText (indent lead : String) (f : Function) : String :=
  lead ++ f.signature ++ ")" ++ f.bodyText indent

/-- A declaration. -/
def declarationText (f : Function) : String :=
  f.signature ++ ");\n"

/-- The parameters stand in a signature as they are declared. -/
theorem signature_eq (f : Function) : f.signature = f.result ++ " " ++ f.name ++ "(" ++
    (if f.parameters = [] then "void" else joined ", " (f.parameters.map (·.declaration))) := by
  rw [signature]
  cases f.parameters <;> rfl

/-- No statement is an empty line. -/
theorem render_ne_empty (statement : Statement) : statement.render ≠ "" := by
  have happend {text ending : String} (h : ending ≠ "") : text ++ ending ≠ "" :=
    fun hempty => h (String.append_eq_empty_iff.mp hempty).2
  cases statement with
  | clearResult => decide
  | _ => exact happend (by decide)

theorem bodyText_block {f : Function} {statements : List Statement}
    (h : f.body = .block statements) (indent : String) :
    f.bodyText indent = blockText indent f.lines := by
  have hline (x : Statement) : textOfLine indent [⟨1, x.render⟩] = indent ++ x.render ++ "\n" := by
    simp [textOfLine, render_ne_empty x]
  simp only [bodyText, blockText, lines, h, Body.statements, List.map_map, Function.comp_def, hline]

/-- The steps that write a definition write its text. -/
theorem textOf_definitionScript (indent lead : String) (f : Function) :
    textOf indent (f.definitionScript lead) = f.definitionText indent lead := by
  rcases hbody : f.body with statement | statements
  · simp only [definitionScript, definitionText, bodyText, hbody, textOf_write, String.append_assoc]
    rfl
  · have hlines : textOf indent [.indented (statements.map fun x => .write x.render)] =
        String.join (statements.map fun x => textOfLine indent [⟨1, x.render⟩]) := by
      have h : textOf indent _ = _ := textOf_indented (statements.map (·.render))
      rwa [List.map_map, List.map_map] at h
    have hfirst : textOf indent (f.definitionScript lead) =
        textOf indent [.write (lead ++ f.signature ++ ") \x7b")] ++
          (textOf indent [.indented (statements.map fun x => .write x.render)] ++
            textOf indent [.write "\x7d"]) := by
      rw [← textOf_append (by simp [allWriteLines, Step.writesLines, allWriteLines_map_write]),
        ← textOf_append rfl]
      simp [definitionScript, hbody]
    rw [hfirst, hlines, textOf_write, textOf_write]
    simp only [definitionText, bodyText, hbody, String.append_assoc]
    rfl

/-- The steps that write a declaration write its text. -/
theorem textOf_declaration (indent : String) (f : Function) :
    textOf indent (f.script .declaration) = f.declarationText := by
  rw [script, textOf_write, declarationText, String.append_assoc]
  rfl

end Function

/-! ## Messages -/

theorem mem_accessors (a : Accessor) : a ∈ Accessor.all := by
  cases a <;> decide

/-- What stands in front of the definition of a function. -/
def Accessor.gap : Accessor → String
  | .get | .size => ""
  | .construct | .create => "\n"

section Messages

variable (s : Settings) (t : Target)

/-- The definitions of a message's functions. -/
def definitionsText (lead : String) : String :=
  "\n" ++ String.join (Accessor.all.map fun a =>
    a.gap ++ (t.function s a).definitionText s.indent lead)

/-- The declarations of a message's functions. -/
def declarationsText : String :=
  "\n" ++ String.join (Accessor.all.map fun a => (t.function s a).declarationText)

variable {s t}

theorem textOf_functionsScript_of_definition {form : Form} {lead : String}
    (hform : form ≠ .declaration) (h : ∀ f : Function, f.script form = f.definitionScript lead) :
    textOf s.indent (functionsScript s form t) = definitionsText s t lead := by
  have hblank : allWriteLines [.blank] = true := rfl
  have hdefinition := allWriteLines_definitionScript lead
  simp only [functionsScript, if_neg hform, h, textOf_append, allWriteLines_append, hblank,
    hdefinition, Bool.and_true, textOf_blank, Function.textOf_definitionScript]
  simp [definitionsText, Accessor.all, Accessor.gap, Target.function, String.append_assoc]

theorem textOf_functionsScript_declaration :
    textOf s.indent (functionsScript s .declaration t) = declarationsText s t := by
  have hblank : allWriteLines [.blank] = true := rfl
  have hdeclaration := allWriteLines_script .declaration
  simp only [functionsScript, if_pos, List.append_nil, textOf_append, allWriteLines_append, hblank,
    hdeclaration, Bool.and_true, textOf_blank, Function.textOf_declaration]
  simp [declarationsText, Accessor.all, Target.function, String.append_assoc]

end Messages

section Units

variable (s : Settings) (p : Protocol) (sourceName : String)

/-- A header whose messages have the given texts of their functions. -/
def headerText (functions : Target → String) : String :=
  textOf s.indent (openingScript s sourceName (targetsOf s p)) ++
    String.join ((targetsOf s p).map fun t =>
      textOf s.indent (recordBlockScript s t) ++ functions t)

/-- A source unit whose messages have the given texts of their functions. -/
def sourceText (functions : Target → String) : String :=
  textOf s.indent (sourceOpeningScript s sourceName) ++
    String.join ((targetsOf s p).map functions)

/-- All functions of a protocol in the order in which they are written. -/
def functionsOf : List Function :=
  (targetsOf s p).flatMap fun t => Accessor.all.map (t.function s)

/-- The text of a header, whatever form it has the functions in. -/
theorem textOf_headerBody :
    textOf s.indent (headerBody s sourceName (targetsOf s p)) =
      headerText s p sourceName fun t => textOf s.indent (functionsScript s (headerForm s) t) := by
  have hmessage : ∀ t, allWriteLines
      (recordBlockScript s t ++ functionsScript s (headerForm s) t) = true := fun t => by
    rw [allWriteLines_append, allWriteLines_recordBlockScript, allWriteLines_functionsScript]
    rfl
  rw [headerBody, textOf_append (allWriteLines_openingScript ..),
    textOf_flatMap fun t _ => hmessage t, headerText]
  simp only [textOf_append (allWriteLines_recordBlockScript s _)]

theorem textOf_sourceBody :
    textOf s.indent (sourceBody s sourceName (targetsOf s p)) =
      sourceText s p sourceName fun t => definitionsText s t "" := by
  have hopening : allWriteLines (sourceOpeningScript s sourceName) = true := rfl
  have hdefinition (t : Target) :
      textOf s.indent (functionsScript s .definition t) = definitionsText s t "" :=
    textOf_functionsScript_of_definition nofun fun _ => rfl
  rw [sourceBody, textOf_append hopening,
    textOf_flatMap fun t _ => allWriteLines_functionsScript s .definition t, sourceText]
  simp only [hdefinition]

/-! What stands around the functions does not depend on where they are defined, and neither does a
function: the settings of both emissions agree in all that these texts read. -/

/-- A header that is the only unit defines the functions. -/
theorem headerUnit_inHeader :
    headerUnit { s with emission := .inHeader } p sourceName =
      ⟨s.headerName,
        headerText s p sourceName fun t => definitionsText s t (s.inlineSpecifiers ++ " ")⟩ := by
  have hfunctions (t : Target) :
      textOf s.indent
          (functionsScript { s with emission := .inHeader } (.inlineWith s.inlineSpecifiers) t) =
        definitionsText s t (s.inlineSpecifiers ++ " ") :=
    textOf_functionsScript_of_definition nofun fun _ => rfl
  rw [headerUnit, textOf_headerBody]
  exact congrArg (OutputUnit.mk _ <| headerText s p sourceName ·) (funext hfunctions)

/-- The header of a split emission declares the functions. -/
theorem headerUnit_split :
    headerUnit { s with emission := .split } p sourceName =
      ⟨s.headerName, headerText s p sourceName (declarationsText s)⟩ := by
  have hfunctions (t : Target) :
      textOf s.indent (functionsScript { s with emission := .split } .declaration t) =
        declarationsText s t :=
    textOf_functionsScript_declaration
  rw [headerUnit, textOf_headerBody]
  exact congrArg (OutputUnit.mk _ <| headerText s p sourceName ·) (funext hfunctions)

/-- The second unit of a split emission defines them. -/
theorem sourceUnit_split :
    sourceUnit { s with emission := .split } p sourceName =
      ⟨s.sourceName, sourceText s p sourceName fun t => definitionsText s t ""⟩ := by
  rw [sourceUnit, textOf_sourceBody]
  rfl

/-- The name of a function depends on the message and on what the function is for. -/
theorem name_function (t : Target) (a : Accessor) : (t.function s a).name = t.accessorName a := by
  cases a <;> rfl

/-- The functions of a message are among its symbols. -/
theorem accessorNames_sublist_symbols (t : Target) :
    (Accessor.all.map t.accessorName).Sublist (t.symbols.map (·.text)) :=
  .cons _ (.cons _ (.refl _))

/-- Where all symbols differ, so do the functions. -/
theorem nodup_functionsOf (h : ((declaredSymbols s p).map (·.text)).Nodup) :
    ((functionsOf s p).map (·.name)).Nodup := by
  rw [← symbols_targetsOf, symbols, List.map_cons, List.map_cons, List.map_flatMap] at h
  have hnames : (functionsOf s p).map (·.name) =
      (targetsOf s p).flatMap fun t => Accessor.all.map t.accessorName := by
    simp [functionsOf, List.map_flatMap, Function.comp_def, name_function]
  rw [hnames]
  refine h.of_cons.of_cons.sublist ?_
  exact List.Sublist.flatMap_right _ fun t _ => accessorNames_sublist_symbols t

end Units

/-! ## Texts -/

/-- The first text stands in the second. -/
def StandsIn (part text : String) : Prop :=
  ∃ before after, text = before ++ part ++ after

namespace StandsIn

variable {part text whole : String}

/-- What stands in a part stands in the whole. -/
theorem trans (h : StandsIn part text) (h' : StandsIn text whole) : StandsIn part whole := by
  obtain ⟨before, after, rfl⟩ := h
  obtain ⟨first, last, rfl⟩ := h'
  exact ⟨first ++ before, after ++ last, by simp only [String.append_assoc]⟩

theorem behind (before part : String) : StandsIn part (before ++ part) :=
  ⟨before, "", by rw [String.append_empty]⟩

theorem of_mem_join {texts : List String} (h : text ∈ texts) :
    StandsIn text (String.join texts) := by
  obtain ⟨before, after, rfl⟩ := List.append_of_mem h
  refine ⟨String.join before, String.join after, ?_⟩
  rw [String.join_append, String.join_cons, String.append_assoc]

end StandsIn

section Texts

variable {s : Settings} {p : Protocol} {e : TaggedMessage} {sourceName : String}
  {units : List OutputUnit}

theorem definitionText_standsIn_definitionsText (s : Settings) (t : Target) (lead : String)
    (a : Accessor) : StandsIn ((t.function s a).definitionText s.indent lead)
      (definitionsText s t lead) := by
  have hmem : a.gap ++ (t.function s a).definitionText s.indent lead ∈
      Accessor.all.map fun a => a.gap ++ (t.function s a).definitionText s.indent lead :=
    List.mem_map.mpr ⟨a, mem_accessors a, rfl⟩
  exact ((StandsIn.behind a.gap _).trans (.of_mem_join hmem)).trans (.behind "\n" _)

/-- The functions of every message stand in the header. -/
theorem standsIn_headerText (sourceName : String) (functions : Target → String) {t : Target}
    (ht : t ∈ targetsOf s p) : StandsIn (functions t) (headerText s p sourceName functions) := by
  have hmem : textOf s.indent (recordBlockScript s t) ++ functions t ∈
      (targetsOf s p).map fun t => textOf s.indent (recordBlockScript s t) ++ functions t :=
    List.mem_map.mpr ⟨t, ht, rfl⟩
  rw [headerText]
  exact ((StandsIn.behind _ _).trans (.of_mem_join hmem)).trans (.behind _ _)

theorem standsIn_sourceText (sourceName : String) (functions : Target → String) {t : Target}
    (ht : t ∈ targetsOf s p) : StandsIn (functions t) (sourceText s p sourceName functions) := by
  have hmem : functions t ∈ (targetsOf s p).map functions := List.mem_map.mpr ⟨t, ht, rfl⟩
  rw [sourceText]
  exact (StandsIn.of_mem_join hmem).trans (.behind _ _)

/-- Every function of a message is defined in one of the units. -/
theorem definitionText_standsIn_unit (h : generate s p sourceName = .ok units)
    (he : e ∈ p.entries) (a : Accessor) : ∃ u ∈ units, ∃ lead,
      StandsIn (((Target.ofTagged s e).function s a).definitionText s.indent lead) u.text := by
  obtain ⟨-, -, rfl⟩ := (generate_eq_ok s p sourceName units).mp h
  have htarget : Target.ofTagged s e ∈ targetsOf s p := List.mem_map_of_mem he
  rcases hemission : s.emission with _ | _
  · have htext : (headerUnit s p sourceName).text = headerText s p sourceName fun t =>
        definitionsText s t (s.inlineSpecifiers ++ " ") := by
      have hheader := congrArg (·.text) (headerUnit_inHeader s p sourceName)
      rwa [← hemission] at hheader
    have hdefinition := definitionText_standsIn_definitionsText s (.ofTagged s e)
      (s.inlineSpecifiers ++ " ") a
    refine ⟨headerUnit s p sourceName, by simp [unitsOfProtocol, hemission],
      s.inlineSpecifiers ++ " ", ?_⟩
    rw [htext]
    exact hdefinition.trans (standsIn_headerText sourceName _ htarget)
  · have htext : (sourceUnit s p sourceName).text = sourceText s p sourceName fun t =>
        definitionsText s t "" := by
      have hsource := congrArg (·.text) (sourceUnit_split s p sourceName)
      rwa [← hemission] at hsource
    have hdefinition := definitionText_standsIn_definitionsText s (.ofTagged s e) "" a
    refine ⟨sourceUnit s p sourceName, by simp [unitsOfProtocol, hemission], "", ?_⟩
    rw [htext]
    exact hdefinition.trans (standsIn_sourceText sourceName _ htarget)

end Texts

/-- The units of the two emissions: what stands around the functions of the messages is the same,
and every function is written once in each unit that has functions, behind the same signature. -/
structure SameText (s : Settings) (p : Protocol) (sourceName : String)
    (inline header source : OutputUnit) : Prop where
  inline : inline = ⟨s.headerName,
    headerText s p sourceName fun t => definitionsText s t (s.inlineSpecifiers ++ " ")⟩
  header : header = ⟨s.headerName, headerText s p sourceName (declarationsText s)⟩
  source : source = ⟨s.sourceName, sourceText s p sourceName fun t => definitionsText s t ""⟩
  once : ((functionsOf s p).map (·.name)).Nodup
  signature : ∀ f ∈ functionsOf s p, f.signature = f.result ++ " " ++ f.name ++ "(" ++
    if f.parameters = [] then "void" else joined ", " (f.parameters.map (·.declaration))

/-- Where one emission succeeds both do, and they write the same text. -/
theorem sameText_generate {s : Settings} {p : Protocol} {sourceName : String}
    {units : List OutputUnit} (h : generate s p sourceName = .ok units) :
    ∃ inline header source,
      generate { s with emission := .inHeader } p sourceName = .ok [inline] ∧
      generate { s with emission := .split } p sourceName = .ok [header, source] ∧
      SameText s p sourceName inline header source := by
  obtain ⟨hentries, hsymbols, -⟩ := (generate_eq_ok s p sourceName units).mp h
  have hsucceeds (emission : Emission) :
      generate { s with emission } p sourceName =
        .ok (unitsOfProtocol { s with emission } p sourceName) :=
    (generate_eq_ok _ p sourceName _).mpr ⟨hentries, hsymbols, rfl⟩
  exact ⟨_, _, _, hsucceeds .inHeader, hsucceeds .split,
    { inline := headerUnit_inHeader s p sourceName
      header := headerUnit_split s p sourceName
      source := sourceUnit_split s p sourceName
      once := nodup_functionsOf s p hsymbols
      signature := fun f _ => f.signature_eq }⟩

/-- A protocol of a message without members and one with a field and a tail. -/
def mixedProtocol : Protocol :=
  ⟨[⟨{ name := "PING", shortName := "ping" }, 0⟩,
    ⟨{ name := "TEXT", shortName := "text", fields := [.ofPair "int" "line"],
        tail := some ⟨"char", "chars"⟩ }, 1⟩]⟩

theorem sameText_mixed :
    ∃ units inline header source,
      generate {} mixedProtocol "mixed.schema" = .ok units ∧
      generate { emission := .inHeader } mixedProtocol "mixed.schema" = .ok [inline] ∧
      generate { emission := .split } mixedProtocol "mixed.schema" = .ok [header, source] ∧
      SameText {} mixedProtocol "mixed.schema" inline header source := by
  have h := (generate_eq_ok {} mixedProtocol "mixed.schema" _).mpr ⟨nofun, by decide, rfl⟩
  obtain ⟨inline, header, source, hrest⟩ := sameText_generate h
  exact ⟨_, inline, header, source, h, hrest⟩

end MessageSchema.Generated
