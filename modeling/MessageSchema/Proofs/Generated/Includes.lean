import MessageSchema.Memory.Layout
import MessageSchema.Proofs.Generated.Blocks
import MessageSchema.Proofs.Text.Words

/-!
# The includes of a header

A header begins with the banner, the pragma and one line for each header that it includes
(`text_headerUnit`): those that the generated code relies on and the settings do not list, then the
listed ones. The words of the members' types decide on the first (`mem_requiredHeaders`). They are
the words that stand apart in a type (`mem_typeWords`), and `standardTypedefs` tells which headers
declare those that a data model knows. Main statement: `includesNeeded_iff`.
-/

namespace MessageSchema.Generated

open Output Text

/-! ## Types of the standard library -/

/-- The standard headers with the types that they declare and a data model knows. -/
def standardTypedefs : List (String × List String) :=
  [("<stddef.h>", ["size_t", "ptrdiff_t"]),
    ("<stdbool.h>", ["bool"]),
    ("<stdint.h>", ["int8_t", "int16_t", "int32_t", "int64_t", "uint8_t", "uint16_t", "uint32_t",
      "uint64_t", "intptr_t", "uintptr_t"]),
    ("<sys/types.h>", ["ssize_t"])]

/-- The words that C knows without a header. -/
def arithmeticKeywords : List String :=
  ["char", "short", "int", "long", "float", "double", "signed", "unsigned", "_Bool"]

/-- The table leaves none out: a word of an arithmetic type is a keyword or declared by a standard
header. -/
theorem keyword_or_typedef : ∀ t ∈ Memory.arithmeticTypes, ∀ spelling ∈ t.2.2,
    ∀ word ∈ words spelling.toList, String.ofList word ∈ arithmeticKeywords ∨
      ∃ entry ∈ standardTypedefs, String.ofList word ∈ entry.2 := by
  decide +kernel

/-- A word stands apart in the type of a member. -/
def Mentions (messages : List Message) (word : String) : Prop :=
  ∃ m ∈ messages, ∃ type ∈ m.memberTypes, StandsApart isWordChar word.toList type.toList

section Required

variable {s : Settings} {messages : List Message} {word header : String}

/-- The words of the types are those that some member mentions. -/
theorem mem_typeWords (h : isIdentifier word = true) :
    word.toList ∈ typeWords messages ↔ Mentions messages word := by
  have hruns (type : List Char) : word.toList ∈ runs isWordChar type ↔
      StandsApart isWordChar word.toList type := by
    rw [mem_runs_iff]
    exact and_iff_right (ne_nil_of_isIdentifierChars h) |>.trans
      (and_iff_right (isWordChar_of_isIdentifierChars h))
  simp only [typeWords, List.mem_flatMap, hruns, Mentions]
  tauto

/-- Which headers the generated code is taken to rely on. -/
theorem mem_requiredHeaders : header ∈ requiredHeaders messages ↔ header = "<stddef.h>" ∨
    ((∃ w ∈ typeWords messages, isStdintWord w = true) ∧ header = "<stdint.h>") ∨
    ("bool".toList ∈ typeWords messages ∧ header = "<stdbool.h>") ∨
    ((∃ m ∈ messages, m.isVariable = true) ∧ header = "<string.h>") := by
  simp only [requiredHeaders, List.mem_append, List.mem_ite_nil_right, List.mem_singleton,
    List.any_eq_true, beq_iff_eq, exists_eq_right, or_assoc]

/-- A header is included if the code requires it or the settings name it. -/
theorem mem_includedHeaders : header ∈ includedHeaders s messages ↔
    header ∈ requiredHeaders messages ∨ header ∈ s.includes := by
  simp only [includedHeaders, List.mem_append, List.mem_filter]
  by_cases h : header ∈ s.includes <;> simp [h]

/-- A header that the settings name is included as often as they name it. -/
theorem count_includedHeaders (h : header ∈ s.includes) :
    (includedHeaders s messages).count header = s.includes.count header := by
  have hnot : header ∉ (requiredHeaders messages).filter (!s.includes.contains ·) := by
    simp [h]
  rw [includedHeaders, List.count_append, List.count_eq_zero.mpr hnot, Nat.zero_add]

/-- The headers of the standard types are required where a type mentions one of these, except the
header of `ssize_t`. -/
theorem mem_requiredHeaders_of_mentions {entry : String × List String}
    (hentry : entry ∈ standardTypedefs) (hword : word ∈ entry.2)
    (hmentions : Mentions messages word) :
    entry.1 ∈ requiredHeaders messages ∨ entry.1 = "<sys/types.h>" ∧ word = "ssize_t" := by
  have hidentifiers : standardTypedefs.all (fun entry => entry.2.all isIdentifier) = true := by
    decide
  have hident := List.all_eq_true.mp (List.all_eq_true.mp hidentifiers entry hentry) word hword
  have hmem := (mem_typeWords hident).mpr hmentions
  simp only [standardTypedefs, List.mem_cons, List.not_mem_nil, or_false] at hentry
  rcases hentry with rfl | rfl | rfl | rfl
  · exact .inl (mem_requiredHeaders.mpr (.inl rfl))
  · obtain rfl : word = "bool" := List.mem_singleton.mp hword
    exact .inl (mem_requiredHeaders.mpr (.inr (.inr (.inl ⟨hmem, rfl⟩))))
  · have hstdint : ["int8_t", "int16_t", "int32_t", "int64_t", "uint8_t", "uint16_t", "uint32_t",
        "uint64_t", "intptr_t", "uintptr_t"].all (fun name => isStdintWord name.toList) = true := by
      decide
    have hword := List.all_eq_true.mp hstdint word hword
    exact .inl (mem_requiredHeaders.mpr (.inr (.inl ⟨⟨_, hmem, hword⟩, rfl⟩)))
  · exact .inr ⟨rfl, List.mem_singleton.mp hword⟩

/-- No member requires `<sys/types.h>`. -/
theorem not_mem_requiredHeaders : "<sys/types.h>" ∉ requiredHeaders messages := by
  simp [mem_requiredHeaders]

end Required

/-! ## The front of a header -/

/-- A line for each header that is included. -/
def includeLines (headers : List String) : String :=
  String.join (headers.map fun header => "#include " ++ header ++ "\n")

/-- The front of a header, up to the enumerators of the discriminant type. -/
def headerFront (sourceName : String) (headers : List String) : String :=
  "// Generated by ipcmsgc from " ++ sourceName ++ ". Do not edit.\n\n#pragma once\n\n" ++
    includeLines headers ++ "\ntypedef enum \x7b\n"

section Front

variable {s : Settings} {sourceName : String}

theorem textOf_includes (headers : List String) :
    textOf s.indent (headers.map fun header => .write ("#include " ++ header)) =
      includeLines headers := by
  have hmap : headers.map (fun header => Step.write ("#include " ++ header)) =
      headers.flatMap fun header => [.write ("#include " ++ header)] :=
    List.map_eq_flatMap
  rw [hmap, textOf_flatMap fun _ _ => rfl, includeLines]
  simp only [textOf_write]

/-- The front of the header has a line for each header that is included. -/
theorem textOf_frontScript (messages : List Message) :
    textOf s.indent (frontScript s sourceName messages) =
      headerFront sourceName (includedHeaders s messages) := by
  have hincludes : allWriteLines ((includedHeaders s messages).map fun header =>
      .write ("#include " ++ header)) = true := by
    simp [allWriteLines_map_write]
  unfold headerFront
  simp only [frontScript, bannerScript, List.cons_append, List.nil_append, textOf_write_cons,
    textOf_blank_cons, textOf_append hincludes, textOf_includes, String.append_assoc]
  rfl

/-- A header begins with the lines of its includes, behind the banner and the pragma. -/
theorem text_headerUnit (s : Settings) (p : Protocol) (sourceName : String) :
    ∃ behind, (headerUnit s p sourceName).text =
      headerFront sourceName (includedHeaders s p.messages) ++ behind := by
  rw [headerUnit_eq, headerWith, textOf_frontScript, String.append_assoc, String.append_assoc]
  exact ⟨_, rfl⟩

end Front

/-- The headers that the code of messages needs are there, and none is there twice because it is
listed too: every word of an arithmetic type is one that C knows, or a header that declares it is
there. -/
structure IncludesNeeded (messages : List Message) (listed headers : List String) : Prop where
  stddef : "<stddef.h>" ∈ headers
  string : (∃ m ∈ messages, m.tail ≠ none) → "<string.h>" ∈ headers
  typedefs : ∀ entry ∈ standardTypedefs, ∀ word ∈ entry.2, Mentions messages word →
    entry.1 ∈ headers
  arithmetic : ∀ t ∈ Memory.arithmeticTypes, ∀ spelling ∈ t.2.2, ∀ word ∈ words spelling.toList,
    Mentions messages (String.ofList word) → String.ofList word ∈ arithmeticKeywords ∨
      ∃ entry ∈ standardTypedefs, String.ofList word ∈ entry.2 ∧ entry.1 ∈ headers
  once : ∀ header ∈ listed, headers.count header = listed.count header

/-- A header includes what its code needs just if the settings list the header of `ssize_t` where a
type mentions that. -/
theorem includesNeeded_iff {s : Settings} {p : Protocol} {sourceName : String}
    {units : List OutputUnit} (h : generate s p sourceName = .ok units) :
    ∃ header rest behind, units = header :: rest ∧
      header.text = headerFront sourceName (includedHeaders s p.messages) ++ behind ∧
      (IncludesNeeded p.messages s.includes (includedHeaders s p.messages) ↔
        (Mentions p.messages "ssize_t" → "<sys/types.h>" ∈ s.includes)) := by
  obtain ⟨rest, rfl⟩ := exists_rest_of_generate h
  obtain ⟨behind, htext⟩ := text_headerUnit s p sourceName
  refine ⟨_, rest, behind, rfl, htext, fun hneeded hmentions => ?_, fun hlisted => ?_⟩
  · have hmem := hneeded.typedefs ("<sys/types.h>", ["ssize_t"]) (by decide) "ssize_t" (by decide)
      hmentions
    exact (mem_includedHeaders.mp hmem).resolve_left not_mem_requiredHeaders
  · have hrequired {header : String} (hmem : header ∈ requiredHeaders p.messages) :
        header ∈ includedHeaders s p.messages := mem_includedHeaders.mpr (.inl hmem)
    have htypedefs : ∀ entry ∈ standardTypedefs, ∀ word ∈ entry.2, Mentions p.messages word →
        entry.1 ∈ includedHeaders s p.messages := by
      intro entry hentry word hword hmentions
      obtain hmem | ⟨hheader, rfl⟩ := mem_requiredHeaders_of_mentions hentry hword hmentions
      · exact hrequired hmem
      · exact mem_includedHeaders.mpr (.inr (hheader ▸ hlisted hmentions))
    refine ⟨hrequired (mem_requiredHeaders.mpr (.inl rfl)), fun ⟨m, hm, htail⟩ => ?_, htypedefs,
      fun t ht spelling hspelling word hword hmentions => ?_, fun header => count_includedHeaders⟩
    · have hvariable : m.isVariable = true := Option.isSome_iff_ne_none.mpr htail
      exact hrequired (mem_requiredHeaders.mpr (.inr (.inr (.inr ⟨⟨m, hm, hvariable⟩, rfl⟩))))
    · obtain hkeyword | ⟨entry, hentry, hmem⟩ :=
        keyword_or_typedef t ht spelling hspelling word hword
      · exact .inl hkeyword
      · exact .inr ⟨entry, hentry, hmem, htypedefs entry hentry _ hmem hmentions⟩

/-! ## A field of a type that needs a header -/

/-- A message whose field counts bytes or tells of an error. -/
def resultMessage : Message where
  name := "READ"
  shortName := "read"
  fields := [.ofPair "ssize_t" "count"]

/-- The protocol of this message only. -/
def resultProtocol : Protocol :=
  ⟨[⟨resultMessage, 0⟩]⟩

/-- The field is of the type `ssize_t`. -/
theorem mentions_result : Mentions resultProtocol.messages "ssize_t" :=
  ⟨resultMessage, List.mem_singleton_self _, "ssize_t", List.mem_singleton_self _, [], [], rfl,
    nofun, nofun⟩

theorem exists_units_result (includes : List String) :
    ∃ units, generate { includes } resultProtocol "test.schema" = .ok units := by
  have hsymbols : ((declaredSymbols {} resultProtocol).map (·.text)).Nodup := by decide
  exact ⟨_, (generate_eq_ok ..).mpr ⟨nofun, hsymbols, rfl⟩⟩

/-- The header of the type is listed. -/
theorem includesNeeded_listed :
    (∃ units, generate { includes := ["<sys/types.h>", "<stddef.h>"] } resultProtocol
        "test.schema" = .ok units) ∧
      IncludesNeeded resultProtocol.messages ["<sys/types.h>", "<stddef.h>"]
        ["<sys/types.h>", "<stddef.h>"] := by
  obtain ⟨units, hunits⟩ := exists_units_result ["<sys/types.h>", "<stddef.h>"]
  obtain ⟨-, -, -, -, -, hneeded⟩ := includesNeeded_iff hunits
  exact ⟨⟨units, hunits⟩, hneeded.mpr fun _ => List.mem_cons_self⟩

/-- With the default settings no header declares the type. -/
theorem not_includesNeeded_result :
    Protocol.resolve .unique [resultMessage] = .ok resultProtocol ∧
      (∃ units, generate {} resultProtocol "test.schema" = .ok units) ∧
      (∃ l, Memory.ProtocolLayout.compute resultProtocol .lp64 .little = .ok l) ∧
      Mentions resultProtocol.messages "ssize_t" ∧
      includedHeaders {} resultProtocol.messages =
        ["<stddef.h>", "<string.h>", "<ghost/result.h>", "<ghost/alloc.h>"] ∧
      ¬ IncludesNeeded resultProtocol.messages ({} : Settings).includes
        (includedHeaders {} resultProtocol.messages) := by
  have hheaders : includedHeaders {} resultProtocol.messages =
      ["<stddef.h>", "<string.h>", "<ghost/result.h>", "<ghost/alloc.h>"] := by
    decide
  have hunits := exists_units_result ({} : Settings).includes
  refine ⟨rfl, hunits, ⟨_, rfl⟩, mentions_result, hheaders, fun hneeded => ?_⟩
  have hmem := hneeded.typedefs ("<sys/types.h>", ["ssize_t"]) (by decide) "ssize_t" (by decide)
    mentions_result
  rw [hheaders] at hmem
  exact absurd hmem (by decide)

end MessageSchema.Generated
