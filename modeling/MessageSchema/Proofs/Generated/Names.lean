import Mathlib.Data.List.Perm.Basic
import MessageSchema.Proofs.Generated.Agreement
import MessageSchema.Proofs.Protocol.Valid
import MessageSchema.Proofs.Text.Identifiers

/-!
# Symbols that follow from the root

Where no name is set on its own, the discriminant constants begin with the root in capital letters,
and every other symbol but the envelope is the root with a word behind it: `type`, the short name of
a message, or a short name with the ending of a function. If the root has a small letter, these
words decide which symbols agree. Main statement: `clashesByShortName`.

- **Words** (`functionWord_inj`): no ending has an underscore in it, so a short name and an ending
  can be told from the word that they make. The words of functions differ (`nodup_functionWords`).
- **Symbols** (`perm_symbolTexts`): the envelope, the constants and the words, in another order. No
  constant begins with the root (`tagConstant_ne_recordName`).
-/

namespace MessageSchema.Generated

open Text

/-- Settings under which all symbols follow from a root that has a small letter. -/
structure NamedByRoot (s : Settings) : Prop where
  smallLetter : ∃ c ∈ s.root.toList, 'a' ≤ c ∧ c ≤ 'z'
  constantRoot? : s.constantRoot? = none
  typeName? : s.typeName? = none
  envelopeName? : s.envelopeName? = none

/-! ## Words -/

/-- The words of the functions of messages with the given short names. -/
def functionWords (shortNames : List String) : List String :=
  shortNames.flatMap fun n => Accessor.all.map fun a => n ++ "_" ++ a.ending

section Words

variable {shortNames : List String} {m n word : String} {a b : Accessor}

theorem underscore_not_mem_ending (a : Accessor) : ∀ c ∈ a.ending.toList, (c != '_') = true := by
  have hall : a.ending.toList.all (· != '_') = true := by cases a <;> rfl
  exact List.all_eq_true.mp hall

/-- The functions of a message have different endings. -/
theorem ending_inj : a.ending = b.ending ↔ a = b := by
  cases a <;> cases b <;> decide

/-- The ending is what stands behind the last underscore. -/
theorem lastRun_functionWord (n : String) (a : Accessor) :
    ((n ++ "_" ++ a.ending).toList.reverse.takeWhile (· != '_')).reverse = a.ending.toList := by
  have hword : (n ++ "_" ++ a.ending).toList = n.toList ++ '_' :: a.ending.toList := by simp
  rw [hword]
  exact lastRun_append rfl (underscore_not_mem_ending a)

/-- The word of a function tells its message and what it is for. -/
theorem functionWord_inj : m ++ "_" ++ a.ending = n ++ "_" ++ b.ending ↔ m = n ∧ a = b := by
  constructor
  · intro h
    have hending : a.ending.toList = b.ending.toList := by
      rw [← lastRun_functionWord m a, h, lastRun_functionWord]
    obtain rfl := ending_inj.mp (String.toList_injective hending)
    rw [String.append_assoc, String.append_assoc, String.append_left_inj] at h
    exact ⟨h, rfl⟩
  · rintro ⟨rfl, rfl⟩
    rfl

theorem mem_functionWords : word ∈ functionWords shortNames ↔
    ∃ n ∈ shortNames, ∃ a : Accessor, word = n ++ "_" ++ a.ending := by
  simp only [functionWords, List.mem_flatMap, List.mem_map, mem_accessors, true_and, eq_comm]

/-- The words of the functions are the short names with one of four endings. -/
theorem mem_functionWords_map {messages : List Message} :
    word ∈ functionWords (messages.map (·.shortName)) ↔
      ∃ n ∈ messages, ∃ ending ∈ ["_get", "_size", "_ctor", "_new"],
        word = n.shortName ++ ending := by
  have hendings : ["_get", "_size", "_ctor", "_new"] = Accessor.all.map fun a => "_" ++ a.ending :=
    rfl
  rw [hendings, mem_functionWords]
  constructor
  · rintro ⟨n, hn, a, rfl⟩
    obtain ⟨m, hm, rfl⟩ := List.mem_map.mp hn
    exact ⟨m, hm, "_" ++ a.ending, List.mem_map_of_mem (mem_accessors a), String.append_assoc ..⟩
  · rintro ⟨n, hn, ending, hending, rfl⟩
    obtain ⟨a, -, rfl⟩ := List.mem_map.mp hending
    exact ⟨n.shortName, List.mem_map_of_mem hn, a, (String.append_assoc ..).symm⟩

theorem type_not_mem_functionWords : "type" ∉ functionWords shortNames := by
  intro h
  obtain ⟨n, -, a, hword⟩ := mem_functionWords.mp h
  have hmem : '_' ∈ (n ++ "_" ++ a.ending).toList := by simp
  rw [← hword] at hmem
  exact absurd hmem (by decide)

/-- Messages with different short names have functions with different words. -/
theorem nodup_functionWords (h : shortNames.Nodup) : (functionWords shortNames).Nodup := by
  refine List.nodup_flatMap.mpr ⟨fun n _ => ?_, h.imp fun {m n} hne => ?_⟩
  · have hinjective : Function.Injective fun a : Accessor => n ++ "_" ++ a.ending :=
      fun a b hab => (functionWord_inj.mp hab).2
    exact (List.nodup_map_iff hinjective).mpr (by decide)
  · refine List.disjoint_left.mpr fun word hm hn => hne ?_
    obtain ⟨a, -, rfl⟩ := List.mem_map.mp hm
    obtain ⟨b, -, hword⟩ := List.mem_map.mp hn
    exact (functionWord_inj.mp hword).1.symm

end Words

section Symbols

variable {s : Settings} {p : Protocol} {name word : String}

/-- The short names of a protocol. -/
def shortNamesOf (p : Protocol) : List String :=
  p.messages.map (·.shortName)

/-- The words that stand behind the root in the symbols of a protocol. -/
def wordsOf (p : Protocol) : List String :=
  "type" :: (shortNamesOf p ++ functionWords (shortNamesOf p))

/-- The discriminant constants of a protocol. -/
def constantsOf (s : Settings) (p : Protocol) : List String :=
  p.messages.map fun m => s.tagConstant m.name

/-- All symbols follow from the root and the names of the messages. -/
theorem symbolTexts_eq (h : NamedByRoot s) :
    (declaredSymbols s p).map (·.text) = s.recordName "type" :: s.root ::
      p.messages.flatMap fun m => s.tagConstant m.name :: s.recordName m.shortName ::
        Accessor.all.map fun a => s.recordName (m.shortName ++ "_" ++ a.ending) := by
  have htype : s.typeName = s.recordName "type" := by
    rw [Settings.typeName, h.typeName?, Settings.recordName, String.append_assoc]
    rfl
  have henvelope : s.envelopeName = s.root := by
    rw [Settings.envelopeName, h.envelopeName?]
    rfl
  simp [declaredSymbols, htype, henvelope, List.map_flatMap, Accessor.all, Accessor.ending,
    Settings.recordName, String.append_assoc]

/-- The symbols are the envelope, the constants, and the root with each of the words behind it. -/
theorem perm_symbolTexts (h : NamedByRoot s) :
    ((declaredSymbols s p).map (·.text)).Perm
      (s.root :: (constantsOf s p ++ (wordsOf p).map s.recordName)) := by
  have hfunctions : (functionWords (shortNamesOf p)).map s.recordName =
      p.messages.flatMap fun m =>
        Accessor.all.map fun a => s.recordName (m.shortName ++ "_" ++ a.ending) := by
    simp [functionWords, shortNamesOf, List.map_flatMap, List.flatMap_map, Function.comp_def]
  have hwords : (wordsOf p).map s.recordName = s.recordName "type" ::
      (p.messages.map (fun m => s.recordName m.shortName) ++
        (functionWords (shortNamesOf p)).map s.recordName) := by
    simp [wordsOf, shortNamesOf, Function.comp_def]
  rw [symbolTexts_eq h, hwords, hfunctions]
  -- the envelope goes to the front, and each message gives its constant and its record away
  refine (List.Perm.swap _ _ _).trans (.cons _ ?_)
  refine List.Perm.trans (.cons _ ?_) List.perm_middle.symm
  refine (List.map_append_flatMap_perm ..).symm.trans (.append_left _ ?_)
  exact (List.map_append_flatMap_perm ..).symm

/-- A small letter is none of the capital ones. -/
theorem toUpper_ne_self {c : Char} (h : 'a' ≤ c ∧ c ≤ 'z') : c.toUpper ≠ c := by
  intro hc
  have hcode := Text.toNat_toUpper h
  rw [hc] at hcode
  omega

/-- No discriminant constant begins with the root. -/
theorem tagConstant_ne_append (h : NamedByRoot s) (name rest : String) :
    s.tagConstant name ≠ s.root ++ rest := by
  intro heq
  have htexts := congrArg String.toList heq
  rw [Settings.tagConstant, Settings.constantRoot, h.constantRoot?] at htexts
  simp only [Option.getD_none, upperAscii, String.toList_append, String.toList_ofList,
    List.append_assoc] at htexts
  have hroot := (List.append_inj htexts (List.length_map ..)).1
  obtain ⟨c, hc, hsmall⟩ := h.smallLetter
  have hcapital := List.map_inj_left.mp (hroot.trans (List.map_id _).symm) c hc
  exact toUpper_ne_self hsmall hcapital

/-- No constant is called like a symbol with small letters in its root. -/
theorem tagConstant_ne_recordName (h : NamedByRoot s) (name word : String) :
    s.tagConstant name ≠ s.recordName word := by
  rw [Settings.recordName, String.append_assoc]
  exact tagConstant_ne_append h name _

theorem recordName_injective (s : Settings) : Function.Injective s.recordName :=
  fun _ _ h => (String.append_right_inj _).mp h

/-- The root is shorter than any symbol made from it. -/
theorem root_ne_recordName (s : Settings) (word : String) : s.root ≠ s.recordName word := by
  intro h
  have hlength := congrArg String.length h
  have hunderscore : "_".length = 1 := rfl
  rw [Settings.recordName, String.length_append, String.length_append] at hlength
  omega

/-- Different names have different constants. -/
theorem nodup_constantsOf (s : Settings) (hnames : (p.messages.map (·.name)).Nodup) :
    (constantsOf s p).Nodup := by
  have hinjective : Function.Injective s.tagConstant :=
    fun _ _ h => (String.append_right_inj _).mp h
  rw [constantsOf, ← Function.comp_def s.tagConstant, ← List.map_map]
  exact hnames.map hinjective

/-- The symbols differ if the words do, which in turn are short names and those of functions. -/
theorem nodup_symbolTexts (h : NamedByRoot s) (hnames : (p.messages.map (·.name)).Nodup) :
    ((declaredSymbols s p).map (·.text)).Nodup ↔ (wordsOf p).Nodup := by
  have hconstants : s.root ∉ constantsOf s p := by
    intro hmem
    obtain ⟨m, -, hm⟩ := List.mem_map.mp hmem
    exact tagConstant_ne_append h m.name "" (by rw [hm, String.append_empty])
  have hrooted : s.root ∉ (wordsOf p).map s.recordName := by
    intro hmem
    obtain ⟨word, -, hword⟩ := List.mem_map.mp hmem
    exact root_ne_recordName s word hword.symm
  have hdisjoint : (constantsOf s p).Disjoint ((wordsOf p).map s.recordName) := by
    refine List.disjoint_left.mpr fun text hconstant hrecord => ?_
    obtain ⟨m, -, rfl⟩ := List.mem_map.mp hconstant
    obtain ⟨word, -, hword⟩ := List.mem_map.mp hrecord
    exact tagConstant_ne_recordName h m.name word hword.symm
  rw [(perm_symbolTexts h).nodup_iff, List.nodup_cons, List.mem_append, List.nodup_append',
    List.nodup_map_iff (recordName_injective s)]
  have hconstantsNodup := nodup_constantsOf s hnames
  tauto

/-- Words agree just if a short name is `type` or the word of a function. -/
theorem nodup_wordsOf (hshortNames : (shortNamesOf p).Nodup) :
    (wordsOf p).Nodup ↔ "type" ∉ shortNamesOf p ∧
      ∀ n ∈ shortNamesOf p, n ∉ functionWords (shortNamesOf p) := by
  rw [wordsOf, List.nodup_cons, List.mem_append, List.nodup_append', List.disjoint_left]
  have htype : "type" ∉ functionWords (shortNamesOf p) := type_not_mem_functionWords
  have hfunctions := nodup_functionWords hshortNames
  tauto

/-- The functions of a protocol are the root with their words behind it. -/
theorem nodup_names_functionsOf (s : Settings) (h : (shortNamesOf p).Nodup) :
    ((functionsOf s p).map (·.name)).Nodup := by
  have hnames : (functionsOf s p).map (·.name) =
      (functionWords (shortNamesOf p)).map s.recordName := by
    simp [functionsOf, functionWords, shortNamesOf, targetsOf, Protocol.messages, List.map_flatMap,
      List.flatMap_map, Function.comp_def, name_function, Target.accessorName, Target.ofTagged,
      Settings.recordName, String.append_assoc]
  rw [hnames]
  exact (nodup_functionWords h).map (recordName_injective s)

end Symbols

namespace Accessors

/-- A message, and one whose record is called like a function of the first. -/
def messages : List Message :=
  [{ name := "A", shortName := "a" }, { name := "A_GET", shortName := "a_get" }]

/-- The protocol of both. -/
def protocol : Protocol :=
  ⟨List.zipWith TaggedMessage.mk messages [0, 1]⟩

theorem resolve_messages : Protocol.resolve .unique messages = .ok protocol :=
  rfl

theorem namedByRoot_default : NamedByRoot {} where
  smallLetter := ⟨'g', by simp, by decide⟩
  constantRoot? := rfl
  typeName? := rfl
  envelopeName? := rfl

end Accessors

/-- Symbols clash by the short names of messages only: neither two functions, nor two discriminant
constants, nor a constant and a record have the same name. -/
structure ClashesByShortName (s : Settings) (p : Protocol) (sourceName : String) : Prop where
  clash : (∃ clash, generate s p sourceName = .error (.symbolClash clash)) ↔
    (∃ m ∈ p.messages, m.shortName = "type") ∨
      ∃ m ∈ p.messages, ∃ n ∈ p.messages, ∃ ending ∈ ["_get", "_size", "_ctor", "_new"],
        m.shortName = n.shortName ++ ending
  functions : ((functionsOf s p).map (·.name)).Nodup
  constants : (p.messages.map fun m => s.tagConstant m.name).Nodup
  constantRecord : ∀ m ∈ p.messages, ∀ n ∈ p.messages,
    s.tagConstant m.name ≠ s.recordName n.shortName

/-- Where all names follow from the root, the symbols of a protocol clash just if a short name is
`type` or another short name with the ending of a function. -/
theorem clashesByShortName {s : Settings} (hs : NamedByRoot s) {policy : DiscriminantPolicy}
    {messages : List Message} {p : Protocol} (hp : Protocol.resolve policy messages = .ok p)
    (hentries : p.entries ≠ []) (sourceName : String) : ClashesByShortName s p sourceName := by
  obtain ⟨hvalid, rfl, -⟩ := Protocol.resolve_eq_ok.mp hp
  refine ⟨?_, nodup_names_functionsOf s hvalid.nodup_shortNames,
    nodup_constantsOf s hvalid.nodup_names, fun m _ n _ => tagConstant_ne_recordName hs _ _⟩
  rw [exists_symbolClash, and_iff_right hentries, nodup_symbolTexts hs hvalid.nodup_names,
    nodup_wordsOf hvalid.nodup_shortNames]
  rw [not_and_or, not_not]
  refine or_congr List.mem_map ?_
  simp only [shortNamesOf, mem_functionWords_map, List.forall_mem_map, not_forall, not_not,
    exists_prop]

theorem clashesByShortName_get :
    NamedByRoot {} ∧ Protocol.resolve .unique Accessors.messages = .ok Accessors.protocol ∧
      Accessors.protocol.entries ≠ [] ∧
      ∃ clash, generate {} Accessors.protocol "a.schema" = .error (.symbolClash clash) := by
  have hentries : Accessors.protocol.entries ≠ [] := nofun
  have hclashes := clashesByShortName Accessors.namedByRoot_default Accessors.resolve_messages
    hentries "a.schema"
  refine ⟨Accessors.namedByRoot_default, Accessors.resolve_messages, hentries, ?_⟩
  refine hclashes.clash.mpr (.inr ⟨_, .tail _ (.head _), _, .head _, "_get", by simp, rfl⟩)

end MessageSchema.Generated
