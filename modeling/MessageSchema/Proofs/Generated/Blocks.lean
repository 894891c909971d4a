import MessageSchema.Proofs.Generated.Outcome

/-!
# What the units hold for each message

A message has its enumerator in the discriminant type, its block in the header (the record, the
assertion on its layout and the functions) and, where the functions are not in the header, its
definitions in the source unit. `blocksOf` lists these texts and `unitsOfProtocol_eq` puts the units
together from them: around them stands nothing that belongs to one message.
-/

namespace MessageSchema.Generated

open Output

/-- The texts that the units hold for one message. -/
structure MessageText where
  enumerator : String
  block : String
  definitions : String

section Blocks

variable (s : Settings) (p : Protocol) (sourceName : String)

/-- The texts of one message. -/
def MessageText.ofTarget (t : Target) : MessageText where
  enumerator := s.indent ++ (t.tag ++ " = " ++ toString t.discriminant.toInt ++ ",") ++ "\n"
  block := textOf s.indent (messageScript s t)
  definitions := textOf s.indent (functionsScript s .definition t)

/-- The texts of the messages of a protocol, in the order of the messages. -/
def blocksOf : List MessageText :=
  (targetsOf s p).map (.ofTarget s)

/-! ## Around the messages -/

/-- What the header holds in front of the enumerators. -/
def frontScript (messages : List Message) : List Step :=
  bannerScript sourceName ++ [.write "#pragma once", .blank] ++
    (includedHeaders s messages).map (fun h => .write ("#include " ++ h)) ++
    [.blank, .write "typedef enum \x7b"]

/-- The enumerators of the discriminant type. -/
def enumeratorsScript (targets : List Target) : List Step :=
  [.indented (targets.map fun t =>
    .write (t.tag ++ " = " ++ toString t.discriminant.toInt ++ ","))]

/-- What the header holds between the enumerators and the blocks of the messages. -/
def middleScript : List Step :=
  [.write ("\x7d " ++ s.typeName ++ ";"), .blank] ++ envelopeScript s

/-- The header of messages with the given texts. -/
def headerWith (messages : List Message) (texts : List MessageText) : OutputUnit :=
  ⟨s.headerName, textOf s.indent (frontScript s sourceName messages) ++
    String.join (texts.map (·.enumerator)) ++ textOf s.indent (middleScript s) ++
    String.join (texts.map (·.block))⟩

/-- The source unit of messages with the given texts. -/
def sourceWith (texts : List MessageText) : OutputUnit :=
  ⟨s.sourceName, textOf s.indent (sourceOpeningScript s sourceName) ++
    String.join (texts.map (·.definitions))⟩

/-- The units of messages with the given texts. -/
def unitsWith (messages : List Message) (texts : List MessageText) : List OutputUnit :=
  match s.emission with
  | .inHeader => [headerWith s sourceName messages texts]
  | .split => [headerWith s sourceName messages texts, sourceWith s sourceName texts]

/-! ## Units -/

theorem textOfLine_write (text : String) (h : text ≠ "") :
    textOfLine s.indent [⟨1, text⟩] = s.indent ++ text ++ "\n" := by
  simp [textOfLine, h]

theorem textOf_enumerators :
    textOf s.indent (enumeratorsScript (targetsOf s p)) =
      String.join ((blocksOf s p).map (·.enumerator)) := by
  have h : textOf s.indent _ = _ := textOf_indented
    ((targetsOf s p).map fun t => t.tag ++ " = " ++ toString t.discriminant.toInt ++ ",")
  rw [List.map_map, List.map_map] at h
  rw [blocksOf, List.map_map]
  refine h.trans (congrArg String.join (List.map_congr_left fun t _ => ?_))
  refine textOfLine_write s _ fun hempty => ?_
  have hlength := congrArg String.length hempty
  simp at hlength

/-- The enumerators stand between two parts that do not depend on the discriminants. -/
theorem openingScript_eq (targets : List Target) :
    openingScript s sourceName targets =
      frontScript s sourceName (targets.map (·.message)) ++
        (enumeratorsScript targets ++ middleScript s) := by
  simp [openingScript, frontScript, enumeratorsScript, middleScript, enumScript]

theorem allWriteLines_frontScript (messages : List Message) :
    allWriteLines (frontScript s sourceName messages) = true := by
  simp [frontScript, bannerScript, allWriteLines_append, allWriteLines_map_write, allWriteLines,
    Step.writesLines]

theorem allWriteLines_enumeratorsScript (targets : List Target) :
    allWriteLines (enumeratorsScript targets) = true := by
  simp [enumeratorsScript, allWriteLines, Step.writesLines, allWriteLines_map_write]

theorem message_targetsOf : (targetsOf s p).map (·.message) = p.messages := by
  rw [targetsOf, List.map_map]
  rfl

/-- The blocks of the header are those of the messages, one behind the other. -/
theorem textOf_blocks :
    textOf s.indent ((targetsOf s p).flatMap (messageScript s)) =
      String.join ((blocksOf s p).map (·.block)) := by
  have hmessage : ∀ t ∈ targetsOf s p, allWriteLines (messageScript s t) = true := fun t _ => by
    show allWriteLines (recordBlockScript s t ++ functionsScript s (headerForm s) t) = true
    rw [allWriteLines_append, allWriteLines_recordBlockScript, allWriteLines_functionsScript]
    rfl
  rw [textOf_flatMap hmessage, blocksOf, List.map_map]
  simp only [Function.comp_def, MessageText.ofTarget]

theorem textOf_definitions :
    textOf s.indent ((targetsOf s p).flatMap (functionsScript s .definition)) =
      String.join ((blocksOf s p).map (·.definitions)) := by
  rw [textOf_flatMap fun t _ => allWriteLines_functionsScript s .definition t, blocksOf,
    List.map_map]
  simp only [Function.comp_def, MessageText.ofTarget]

theorem textOf_openingScript :
    textOf s.indent (openingScript s sourceName (targetsOf s p)) =
      textOf s.indent (frontScript s sourceName p.messages) ++
        (String.join ((blocksOf s p).map (·.enumerator)) ++ textOf s.indent (middleScript s)) := by
  rw [openingScript_eq, message_targetsOf, textOf_append (allWriteLines_frontScript ..),
    textOf_append (allWriteLines_enumeratorsScript _), textOf_enumerators]

/-- The header consists of the blocks of the messages and what stands around them. -/
theorem headerUnit_eq :
    headerUnit s p sourceName = headerWith s sourceName p.messages (blocksOf s p) := by
  have hbody : headerBody s sourceName (targetsOf s p) =
      openingScript s sourceName (targetsOf s p) ++ (targetsOf s p).flatMap (messageScript s) :=
    rfl
  rw [headerUnit, headerWith, hbody, textOf_append (allWriteLines_openingScript ..),
    textOf_openingScript, textOf_blocks, String.append_assoc, String.append_assoc,
    String.append_assoc, String.append_assoc]

/-- So does the second unit. -/
theorem sourceUnit_eq : sourceUnit s p sourceName = sourceWith s sourceName (blocksOf s p) := by
  have hopening : allWriteLines (sourceOpeningScript s sourceName) = true := rfl
  rw [sourceUnit, sourceWith, sourceBody, textOf_append hopening, textOf_definitions]

/-- The units of a protocol hold the texts of its messages one after the other. -/
theorem unitsOfProtocol_eq :
    unitsOfProtocol s p sourceName = unitsWith s sourceName p.messages (blocksOf s p) := by
  rcases hemission : s.emission with _ | _ <;>
    simp only [unitsOfProtocol, unitsWith, hemission, headerUnit_eq, sourceUnit_eq]

end Blocks

end MessageSchema.Generated
