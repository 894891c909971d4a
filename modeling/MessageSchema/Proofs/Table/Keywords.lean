import MessageSchema.Proofs.Field.Declaration
import MessageSchema.Proofs.Table.Resolved
import MessageSchema.Proofs.Text.Words

/-!
# Members named by keywords

The name of a field is the last word of its declaration, whatever word that is. So a text of nothing
but type specifiers and qualifiers (`Field.Nameless`) is a declaration as soon as it has two words,
and the last of them is the name (`Field.exists_ofDeclaration_of_nameless`,
`Field.getLast?_words_of_nameless`). The names of the members of a protocol are those that stand in
its rows (`Table.named_iff`), and only these can keep the keywords out of it. Main statement:
`Table.sparesKeywords_iff`.
-/

namespace MessageSchema

open Text

/-- The keywords of C. -/
def keywords : List String :=
  ["auto", "break", "case", "char", "const", "continue", "default", "do", "double", "else", "enum",
    "extern", "float", "for", "goto", "if", "inline", "int", "long", "register", "restrict",
    "return", "short", "signed", "sizeof", "static", "struct", "switch", "typedef", "union",
    "unsigned", "void", "volatile", "while", "_Alignas", "_Alignof", "_Atomic", "_Bool", "_Complex",
    "_Generic", "_Imaginary", "_Noreturn", "_Static_assert", "_Thread_local"]

/-- The keywords that are type specifiers or qualifiers by themselves. -/
def typeKeywords : List String :=
  ["void", "char", "short", "int", "long", "float", "double", "signed", "unsigned", "_Bool",
    "_Complex", "const", "restrict", "volatile", "_Atomic"]

theorem mem_keywords_of_mem_typeKeywords : ∀ word ∈ typeKeywords, word ∈ keywords := by
  decide

theorem isIdentifier_of_mem_typeKeywords {word : String} (h : word ∈ typeKeywords) :
    isIdentifier word = true :=
  List.all_eq_true.mp (by decide : typeKeywords.all isIdentifier = true) word h

namespace Field

/-- A text of type specifiers and qualifiers only. -/
def Nameless (text : String) : Prop :=
  ∀ word ∈ words text.toList, String.ofList word ∈ typeKeywords

instance (text : String) : Decidable (Nameless text) :=
  inferInstanceAs (Decidable (∀ word ∈ words text.toList, String.ofList word ∈ typeKeywords))

variable {text : String} {f : Field} {before word : List Char}

theorem Nameless.identifier (h : Nameless text) (hword : word ∈ words text.toList) :
    isIdentifierChars word = true := by
  simpa [isIdentifier] using isIdentifier_of_mem_typeKeywords (h word hword)

theorem Nameless.wordChars (h : Nameless text) :
    ∀ word ∈ words text.toList, ∀ c ∈ word, isWordChar c = true :=
  fun _ hword => isWordChar_of_isIdentifierChars (h.identifier hword)

/-- What is cut off a text of keywords is its last word, if it has one. -/
theorem Nameless.cut_cases (h : Nameless text) (hcut : CutFrom text.toList before word) :
    (words text.toList = [] ∧ word = []) ∨
      (words text.toList = words before ++ [word] ∧ isIdentifierChars word = true) := by
  have hchars := h.wordChars
  have htrimmed := hcut.trimmed.words_eq
  by_cases hword : word = []
  · subst hword
    obtain ⟨htight, -⟩ := hcut.trimmed
    have hlast := hcut.lastWord
    rw [htrimmed] at hchars ⊢
    rw [List.append_nil] at htight hlast hchars ⊢
    exact .inl ⟨by rw [eq_nil_of_lastWord_nil htight hlast hchars]; rfl, rfl⟩
  · have hwords : words text.toList = words before ++ [word] := by
      rw [htrimmed] at hchars ⊢
      exact words_of_lastWord hcut.lastWord hchars hword
    exact .inr ⟨hwords, h.identifier (hwords ▸ List.mem_concat_self)⟩

/-- A text of keywords is a declaration if there are two of them. -/
theorem exists_ofDeclaration_of_nameless (h : Nameless text) :
    (∃ f, ofDeclaration text = .ok f) ↔ 2 ≤ (words text.toList).length := by
  obtain ⟨before, word, hcut⟩ := exists_cut text.toList
  rw [ofDeclaration_eq hcut]
  obtain ⟨hnil, rfl⟩ | ⟨hwords, hident⟩ := h.cut_cases hcut
  · simp [hnil]
  · have hne := ne_nil_of_isIdentifierChars hident
    by_cases hblank : Blank before
    · simp [hne, hblank, hwords, words_eq_nil.mpr hblank]
    · have hpos : 0 < (words before).length :=
        List.length_pos_iff.mpr fun hnil => hblank (words_eq_nil.mp hnil)
      rw [if_neg hne, if_neg hblank, if_neg (by simp [hident]), hwords, List.length_append]
      exact iff_of_true ⟨_, rfl⟩ (Nat.succ_le_succ hpos)

/-- The field of a declaration of keywords has the last of them for its name. -/
theorem getLast?_words_of_nameless (h : Nameless text) (hf : ofDeclaration text = .ok f) :
    (words text.toList).getLast? = some f.name.toList := by
  obtain ⟨before, word, hcut⟩ := exists_cut text.toList
  have hparts := ofDeclaration_eq_ok.mp hf
  have hsame : f.declaration.toList = before ++ word :=
    hparts.trimmed.trim_eq.symm.trans hcut.trimmed.trim_eq
  have hword : word = f.name.toList := hcut.lastWord.unique (hsame ▸ hparts.lastWord)
  have hne : word ≠ [] := hword ▸
    ne_nil_of_isIdentifierChars (isIdentifierChars_name.mpr hparts.identifier)
  obtain ⟨-, hnil⟩ | ⟨hwords, -⟩ := h.cut_cases hcut
  · exact absurd hnil hne
  · rw [hwords, List.getLast?_concat, hword]

/-- The name of a field that is read of keywords is a keyword. -/
theorem name_mem_typeKeywords (h : Nameless text) (hf : ofDeclaration text = .ok f) :
    f.name ∈ typeKeywords := by
  have hlast := List.mem_of_getLast? (getLast?_words_of_nameless h hf)
  simpa using h _ hlast

end Field

namespace Table

/-- The name stands in one of the rows as the last word of a declaration or in a pair. -/
inductive NamedIn (names : List String) (rows : List (List Cell)) : String → Prop
  | declaration {text name : String} : ItemIn names rows (.text text) →
    LastWord (trim text.toList) name.toList → NamedIn names rows name
  | pair {type name : String} : PairIn names rows type name → NamedIn names rows name

variable {policy : DiscriminantPolicy} {names : List String} {rows : List (List Cell)}
  {p : Protocol} {m : Message} {f : Field} {name text : String}

theorem lastWord_of_ofDeclaration (h : Field.ofDeclaration text = .ok f) :
    LastWord (trim text.toList) f.name.toList := by
  have hparts := Field.ofDeclaration_eq_ok.mp h
  rw [hparts.trimmed.trim_eq]
  exact hparts.lastWord

/-- A text among the fields of the rows is read as a field. -/
theorem exists_read (h : Resolves policy names rows p) (hitem : ItemIn names rows (.text text)) :
    ∃ f, Field.ofDeclaration text = .ok f := by
  obtain ⟨f, hgives⟩ := exists_field h hitem
  cases hgives with
  | declaration hread => exact ⟨f, hread⟩

/-- The names of the members of a protocol are those that stand in its rows. -/
theorem named_iff (h : Resolves policy names rows p) :
    (∃ m ∈ p.messages, name ∈ m.memberNames) ↔ NamedIn names rows name := by
  have hmembers : (∃ m ∈ p.messages, name ∈ m.memberNames) ↔
      ∃ type, MemberIn names rows type name := by
    simp only [← member_iff h, mem_memberNames]
    exact ⟨fun ⟨m, hm, type, hmember⟩ => ⟨type, m, hm, hmember⟩,
      fun ⟨type, m, hm, hmember⟩ => ⟨m, hm, type, hmember⟩⟩
  rw [hmembers]
  constructor
  · rintro ⟨type, hmember⟩
    cases hmember with
    | declaration hitem hread => exact .declaration hitem (lastWord_of_ofDeclaration hread)
    | pair hpair => exact .pair hpair
  · intro hnamed
    cases hnamed with
    | declaration hitem hlast =>
      obtain ⟨f, hread⟩ := exists_read h hitem
      have hname := (lastWord_of_ofDeclaration hread).unique hlast
      exact ⟨f.type, String.toList_inj.mp hname ▸ .declaration hitem hread⟩
    | pair hpair => exact ⟨_, .pair hpair⟩

/-- What it takes that no member of a protocol is named by a keyword and no text without a name
declares a field. -/
structure SparesKeywords (names : List String) (rows : List (List Cell)) (p : Protocol) : Prop where
  named : ∀ m ∈ p.messages, ∀ name ∈ m.memberNames, name ∉ keywords
  nameless : ∀ text, Field.Nameless text → ¬ ItemIn names rows (.text text)

/-- The keywords are kept out of a protocol if none stands in its rows as a name; a text of type
specifiers and qualifiers, two at least, declares a field that is named by the last of them. -/
theorem sparesKeywords_iff (h : Resolves policy names rows p) :
    (SparesKeywords names rows p ↔ ∀ name, NamedIn names rows name → name ∉ keywords) ∧
    ∀ text, Field.Nameless text →
      ((∃ f, Field.ofDeclaration text = .ok f) ↔ 2 ≤ (words text.toList).length) ∧
      (ItemIn names rows (.text text) → ∃ m ∈ p.messages, ∃ name ∈ m.memberNames,
        name ∈ keywords ∧ (words text.toList).getLast? = some name.toList) := by
  have hitem (text : String) (hnameless : Field.Nameless text)
      (hitem : ItemIn names rows (.text text)) : ∃ m ∈ p.messages, ∃ name ∈ m.memberNames,
        name ∈ keywords ∧ (words text.toList).getLast? = some name.toList := by
    obtain ⟨f, hread⟩ := exists_read h hitem
    have hnamed : NamedIn names rows f.name := .declaration hitem (lastWord_of_ofDeclaration hread)
    obtain ⟨m, hm, hname⟩ := (named_iff h).mpr hnamed
    exact ⟨m, hm, f.name, hname,
      mem_keywords_of_mem_typeKeywords _ (Field.name_mem_typeKeywords hnameless hread),
      Field.getLast?_words_of_nameless hnameless hread⟩
  refine ⟨⟨fun hspares name hname => ?_, fun hnames => ?_⟩, fun text hnameless =>
    ⟨Field.exists_ofDeclaration_of_nameless hnameless, hitem text hnameless⟩⟩
  · obtain ⟨m, hm, hmem⟩ := (named_iff h).mpr hname
    exact hspares.named m hm name hmem
  · have hnamed : ∀ m ∈ p.messages, ∀ name ∈ m.memberNames, name ∉ keywords :=
      fun m hm name hmem => hnames name ((named_iff h).mp ⟨m, hm, hmem⟩)
    refine ⟨hnamed, fun text hnameless hin => ?_⟩
    obtain ⟨m, hm, name, hmem, hkeyword, -⟩ := hitem text hnameless hin
    exact hnamed m hm name hmem hkeyword

/-- The columns of a table of messages with fields. -/
def fieldColumns : List String :=
  ["name", "shortname", "data_fields"]

/-- A table of one message with one field. -/
def oneField (item : Cell) : List (List Cell) :=
  [[.text "OPEN", .text "open", .list [item]]]

theorem sparesKeywords_path : ∃ p,
    Resolves .unique fieldColumns (oneField (.text "const char *path")) p ∧
    SparesKeywords fieldColumns (oneField (.text "const char *path")) p := by
  have hrows : ∃ p, Resolves .unique fieldColumns (oneField (.text "const char *path")) p ∧
      ∀ m ∈ p.messages, ∀ name ∈ m.memberNames, name ∉ keywords :=
    ⟨_, ⟨_, rfl, rfl⟩, by decide⟩
  obtain ⟨p, h, hnames⟩ := hrows
  refine ⟨p, h, (sparesKeywords_iff h).1.mpr fun name hname => ?_⟩
  obtain ⟨m, hm, hmem⟩ := (named_iff h).mpr hname
  exact hnames m hm name hmem

/-- Two type specifiers are read as a field. -/
theorem not_sparesKeywords_unsigned : ∃ p,
    Resolves .unique fieldColumns (oneField (.text "unsigned int")) p ∧
    ¬ SparesKeywords fieldColumns (oneField (.text "unsigned int")) p := by
  refine ⟨_, ⟨_, rfl, rfl⟩, fun hspares => ?_⟩
  refine hspares.nameless "unsigned int" (by decide) ⟨[.text "unsigned int"], ?_, by simp⟩
  exact ⟨_, List.mem_singleton_self _, by simp [fieldColumns, Column.ofName]⟩

end Table

end MessageSchema
