import MessageSchema.Message.Basic
import MessageSchema.Proofs.Protocol.Valid
import MessageSchema.Proofs.Text.Trimming

/-!
# Field declarations

`Field.ofDeclaration` for every text: the field that it gives has the trimmed text for its
declaration, the last word of it for its name and the rest, up to blank space, for its type
(`Parts`), and every refusal has its reason (`Faulty`). Main statement: `splitsDeclarations`.

- **Reading** (`ofDeclaration_eq`): what is read of a text, from its last word and what stands
  before it.
- **Parts** (`ofDeclaration_eq_ok`): no other field has the parts of a text, so a declaration that
  was read is read again as the same field, and a type and a name are read as the pair that they
  are (`ofDeclaration_pair`).
-/

namespace MessageSchema.Field

open Text

variable {text : String} {f : Field} {type name : String} {before word gap : List Char} {c : Char}

/-! ## Names -/

/-- No identifier begins with a digit. -/
theorem not_isWordStart_of_isDigit (h : IsDigit c) : isWordStart c = false := by
  have hdigit : 48 ≤ c.toNat ∧ c.toNat ≤ 57 := h
  rw [← Bool.not_eq_true, isWordStart_iff]
  rintro (hletter | rfl)
  · have hcodes : 65 ≤ c.toNat ∧ c.toNat ≤ 90 ∨ 97 ≤ c.toNat ∧ c.toNat ≤ 122 := hletter
    omega
  · exact absurd hdigit (by decide)

/-- A word that is no identifier begins with a digit. -/
theorem not_isIdentifierChars_iff (hword : ∀ c ∈ word, isWordChar c = true) (hne : word ≠ []) :
    isIdentifierChars word = false ↔ ∃ c rest, word = c :: rest ∧ IsDigit c := by
  rcases word with _ | ⟨first, rest⟩
  · exact absurd rfl hne
  obtain ⟨hfirst, hrest⟩ := List.forall_mem_cons.mp hword
  have hall : rest.all isWordChar = true := List.all_eq_true.mpr hrest
  rw [isIdentifierChars, hall, Bool.and_true]
  constructor
  · intro hstart
    refine ⟨first, rest, rfl, ?_⟩
    rw [← Bool.not_eq_true, isWordStart_iff] at hstart
    have hchar := isWordChar_iff_isLetter.mp hfirst
    tauto
  · rintro ⟨c, _, heq, hdigit⟩
    cases heq
    exact not_isWordStart_of_isDigit hdigit

theorem isIdentifierChars_name : isIdentifierChars name.toList = true ↔ IsCIdentifier name :=
  isIdentifier_iff

/-! ## Reading -/

/-- Why a text declares no field, from its last word and what stands before it. -/
def Faulty (before word : List Char) : DeclarationFault → Prop
  | .noName => word = []
  | .noType => word ≠ [] ∧ Blank before
  | .nameNotIdentifier => ¬ Blank before ∧ ∃ c rest, word = c :: rest ∧ IsDigit c

/-- There is a fault if there is no last word, nothing in front of it, or a digit at its begin. -/
theorem exists_faulty
    (h : word = [] ∨ Blank before ∨ ∃ c rest, word = c :: rest ∧ IsDigit c) :
    ∃ fault, Faulty before word fault := by
  by_cases hword : word = []
  · exact ⟨.noName, hword⟩
  by_cases hblank : Blank before
  · exact ⟨.noType, hword, hblank⟩
  · exact ⟨.nameNotIdentifier, hblank, (h.resolve_left hword).resolve_left hblank⟩

/-- A trimmed text, cut in front of its last word. -/
structure CutFrom (text before word : List Char) : Prop where
  trimmed : TrimmedFrom text (before ++ word)
  lastWord : LastWord (before ++ word) word

/-- Every text can be cut in front of its last word. -/
theorem exists_cut (text : List Char) : ∃ before word, CutFrom text before word := by
  obtain ⟨before, word, hcut, hword⟩ := exists_lastWord (trim text)
  exact ⟨before, word, hcut ▸ trimmedFrom_trim text, hword⟩

/-- And in one way only. -/
theorem CutFrom.unique {text before' word' : List Char} (h : CutFrom text before word)
    (h' : CutFrom text before' word') : before = before' ∧ word = word' := by
  have htrim := h.trimmed.trim_eq.symm.trans h'.trimmed.trim_eq
  have hword : word = word' := h.lastWord.unique (htrim ▸ h'.lastWord)
  subst hword
  exact ⟨List.append_cancel_right htrim, rfl⟩

/-- What a declaration is read as depends on its last word and on what stands before it. -/
theorem ofDeclaration_eq (h : CutFrom text.toList before word) :
    ofDeclaration text =
      if word = [] then .error .noName
      else if Blank before then .error .noType
      else if isIdentifierChars word = false then .error .nameNotIdentifier
      else .ok
        ⟨String.ofList (trimEnd before), String.ofList word, String.ofList (before ++ word)⟩ := by
  obtain ⟨hbefore, hword⟩ := h.lastWord.scan
  simp only [ofDeclaration, h.trimmed.trim_eq, hbefore, hword, List.isEmpty_iff, trimEnd_eq_nil,
    Bool.not_eq_true']

/-- A declaration is refused for the faults of its two parts. -/
theorem ofDeclaration_eq_error (h : CutFrom text.toList before word) {fault : DeclarationFault} :
    ofDeclaration text = .error fault ↔ Faulty before word fault := by
  rw [ofDeclaration_eq h]
  by_cases hname : word = []
  · cases fault <;> simp [hname, Faulty]
  have hdigit := not_isIdentifierChars_iff h.lastWord.wordChars hname
  by_cases hblank : Blank before
  · cases fault <;> simp [hname, hblank, Faulty]
  by_cases hident : isIdentifierChars word = false <;> cases fault <;>
    simp only [hname, hblank, hident, Faulty, ← hdigit, if_true, if_false] <;> simp

/-! ## Parts -/

/-- The parts of a text that a field has. -/
structure Parts (text : String) (f : Field) : Prop where
  trimmed : TrimmedFrom text.toList f.declaration.toList
  split : ∃ gap, Blank gap ∧ f.declaration.toList = f.type.toList ++ gap ++ f.name.toList
  lastWord : LastWord f.declaration.toList f.name.toList
  identifier : IsCIdentifier f.name
  type_ne_empty : f.type ≠ ""
  type_tight : Tight f.type.toList

/-- What stands before the last word of a tight text begins as the text does. -/
theorem tight_trimEnd (h : Tight (before ++ word)) : Tight (trimEnd before) where
  first c hc := by
    obtain ⟨gap, hgap, -⟩ := exists_trimEnd_append before
    refine h.first c ?_
    rw [hgap, List.head?_append, List.head?_append, Option.mem_def.mp hc]
    rfl
  last := getLast?_trimEnd before

theorem parts_of_cut (h : CutFrom text.toList before word) (hblank : ¬ Blank before)
    (hident : isIdentifierChars word = true) :
    Parts text
      ⟨String.ofList (trimEnd before), String.ofList word, String.ofList (before ++ word)⟩ where
  trimmed := by simpa using h.trimmed
  split := by
    obtain ⟨gap, hgap, hblank⟩ := exists_trimEnd_append before
    refine ⟨gap, hblank, ?_⟩
    simp only [String.toList_ofList]
    rw [← hgap]
  lastWord := by simpa using h.lastWord
  identifier := by
    rw [← isIdentifierChars_name]
    simpa using hident
  type_ne_empty htype := by
    have hnil : trimEnd before = [] := by simpa using congrArg String.toList htype
    exact hblank (trimEnd_eq_nil.mp hnil)
  type_tight := by simpa using tight_trimEnd h.trimmed.tight

/-- The fields that are read off a text are those with its parts. -/
theorem ofDeclaration_eq_ok : ofDeclaration text = .ok f ↔ Parts text f := by
  constructor
  · intro h
    obtain ⟨before, word, hcut⟩ := exists_cut text.toList
    rw [ofDeclaration_eq hcut] at h
    split at h
    · cases h
    split at h
    · cases h
    rename_i hblank
    split at h
    · cases h
    rename_i hident
    cases h
    exact parts_of_cut hcut hblank (by simpa using hident)
  · intro h
    obtain ⟨gap, hgap, hsplit⟩ := h.split
    -- the parts of the field say where its text is cut, and this cut is the only one
    have hcut : CutFrom text.toList (f.type.toList ++ gap) f.name.toList :=
      ⟨hsplit ▸ h.trimmed, hsplit ▸ h.lastWord⟩
    have hident : isIdentifierChars f.name.toList = true := isIdentifierChars_name.mpr h.identifier
    have hname : f.name.toList ≠ [] := ne_nil_of_isIdentifierChars hident
    have htype : ¬ Blank (f.type.toList ++ gap) := by
      intro hblank
      have hnil := h.type_tight.eq_nil fun c hc => hblank c (List.mem_append_left _ hc)
      exact h.type_ne_empty (by simpa using hnil)
    rw [ofDeclaration_eq hcut, if_neg hname, if_neg htype, if_neg (by simp [hident]),
      trimEnd_append_blank _ hgap, trimEnd_eq_self h.type_tight.last, ← hsplit]
    simp

/-- The declaration of a field has the parts of the field again. -/
theorem Parts.again (h : Parts text f) : Parts f.declaration f where
  trimmed := ⟨h.trimmed.tight, [], [], blank_nil, blank_nil, by simp⟩
  split := h.split
  lastWord := h.lastWord
  identifier := h.identifier
  type_ne_empty := h.type_ne_empty
  type_tight := h.type_tight

/-! ## Pairs of a type and a name -/

/-- Without the blank space in front of it, a text that ends in a word is tight. -/
theorem tight_dropWhile_append (s : List Char) (hword : ∀ c ∈ word, isWordChar c = true)
    (hne : word ≠ []) : Tight (s.dropWhile isBlank ++ word) where
  first c hc := by
    have hhead := List.head?_dropWhile_not isBlank s
    rcases hrest : s.dropWhile isBlank with _ | ⟨d, rest⟩
    · rw [hrest, List.nil_append] at hc
      exact not_isBlank_of_isWordChar (hword c (List.mem_of_mem_head? hc))
    · rw [hrest] at hc hhead
      obtain rfl : d = c := by simpa using hc
      simpa using hhead
  last c hc := by
    rw [List.getLast?_append_of_ne_nil _ hne] at hc
    exact not_isBlank_of_isWordChar (hword c (List.mem_of_mem_getLast? hc))

/-- A type and a name with a space between them, cut in front of the name. -/
theorem cutFrom_pair (type : String) (hname : IsCIdentifier name) :
    CutFrom (type ++ " " ++ name).toList ((type.toList ++ [' ']).dropWhile isBlank)
      name.toList := by
  have hident := isIdentifierChars_name.mpr hname
  have hword := isWordChar_of_isIdentifierChars hident
  have hsplit := List.takeWhile_append_dropWhile (p := isBlank) (l := type.toList ++ [' '])
  constructor
  · refine ⟨tight_dropWhile_append _ hword (ne_nil_of_isIdentifierChars hident), ?_⟩
    refine ⟨(type.toList ++ [' ']).takeWhile isBlank, [], ?_, blank_nil, ?_⟩
    · exact fun c hc => List.all_eq_true.mp List.all_takeWhile c hc
    · rw [List.append_nil, ← List.append_assoc, hsplit]
      simp
  · refine lastWord_append hword fun c hc => ?_
    -- what is left of the type ends in the space, if it is not empty
    have hlast := congrArg List.getLast? hsplit
    rw [List.getLast?_append, Option.mem_def.mp hc, List.getLast?_concat] at hlast
    obtain rfl : c = ' ' := by simpa using hlast
    decide

/-- A type and a name with a space between them are read as the type, trimmed, and the name, unless
the type is blank. -/
theorem ofDeclaration_pair_eq (type : String) (hname : IsCIdentifier name) :
    ofDeclaration (type ++ " " ++ name) =
      if Blank type.toList then .error .noType
      else .ok ⟨String.ofList (trim type.toList), name,
        String.ofList (trim (type ++ " " ++ name).toList)⟩ := by
  have hident := isIdentifierChars_name.mpr hname
  have hcut := cutFrom_pair type hname
  have htype : trimEnd ((type.toList ++ [' ']).dropWhile isBlank) = trim type.toList :=
    trim_append_blank type.toList (List.all_eq_true.mp rfl)
  have hblank : Blank ((type.toList ++ [' ']).dropWhile isBlank) ↔ Blank type.toList := by
    rw [← trimEnd_eq_nil, htype, trim_eq_nil]
  have hvalid : ¬ isIdentifierChars name.toList = false := by simp [hident]
  rw [ofDeclaration_eq hcut, if_neg (ne_nil_of_isIdentifierChars hident), if_neg hvalid, htype,
    hcut.trimmed.trim_eq, String.ofList_toList]
  exact if_congr hblank rfl rfl

/-- A tight type and a name with one space between them are read as this pair. -/
theorem ofDeclaration_pair (hne : type ≠ "") (htight : Tight type.toList)
    (hname : IsCIdentifier name) :
    ofDeclaration (type ++ " " ++ name) = .ok (ofPair type name) := by
  have hblank : ¬ Blank type.toList :=
    fun hblank => hne (by simpa using htight.eq_nil hblank)
  have hwhole : Tight (type ++ " " ++ name).toList := by
    have hident := isIdentifierChars_name.mpr hname
    have hword := isWordChar_of_isIdentifierChars hident
    have htext := tight_dropWhile_append (type.toList ++ [' ']) hword
      (ne_nil_of_isIdentifierChars hident)
    rcases hchars : type.toList with _ | ⟨c, rest⟩
    · exact absurd (by simpa using hchars) hne
    · have hc : isBlank c = false := htight.first c (by simp [hchars])
      rw [hchars, List.cons_append, List.dropWhile_cons_of_neg (by simp [hc])] at htext
      simpa [hchars] using htext
  rw [ofDeclaration_pair_eq type hname, if_neg hblank, htight.trim_eq, hwhole.trim_eq]
  simp only [String.ofList_toList]
  rfl

/-- What comes of a text that is read as a declaration. -/
structure SplitsDeclaration (text : String) : Prop where
  read : ∀ f, ofDeclaration text = .ok f ↔ Parts text f
  again : ∀ f, ofDeclaration text = .ok f → ofDeclaration f.declaration = .ok f
  fault : ∀ fault, ofDeclaration text = .error fault ↔
    ∃ before word, CutFrom text.toList before word ∧ Faulty before word fault
  refused : (∃ fault, ofDeclaration text = .error fault) ↔
    ∃ before word, CutFrom text.toList before word ∧
      (word = [] ∨ Blank before ∨ ∃ c rest, word = c :: rest ∧ IsDigit c)

/-- A text is read as the type and the name that it is trimmed and cut into, or refused for one of
three reasons; and every type and name can be written with a space between them. -/
theorem splitsDeclarations (text : String) : SplitsDeclaration text ∧
    ∀ type name, type ≠ "" → Tight type.toList → IsCIdentifier name →
      ofDeclaration (type ++ " " ++ name) = .ok ⟨type, name, type ++ " " ++ name⟩ := by
  obtain ⟨before, word, hcut⟩ := exists_cut text.toList
  have hfault : ∀ fault, ofDeclaration text = .error fault ↔
      ∃ before word, CutFrom text.toList before word ∧ Faulty before word fault := by
    intro fault
    constructor
    · intro h
      exact ⟨before, word, hcut, (ofDeclaration_eq_error hcut).mp h⟩
    · rintro ⟨_, _, hcut, h⟩
      exact (ofDeclaration_eq_error hcut).mpr h
  refine ⟨⟨fun f => ofDeclaration_eq_ok, fun f h => ?_, hfault, ?_⟩, ?_⟩
  · exact ofDeclaration_eq_ok.mpr (ofDeclaration_eq_ok.mp h).again
  · simp only [hfault]
    constructor
    · rintro ⟨fault, before, word, hcut, h⟩
      refine ⟨before, word, hcut, ?_⟩
      cases fault with
      | noName => exact .inl h
      | noType => exact .inr (.inl h.2)
      | nameNotIdentifier => exact .inr (.inr h.2)
    · rintro ⟨before, word, hcut, h⟩
      obtain ⟨fault, hfaulty⟩ := exists_faulty h
      exact ⟨fault, before, word, hcut, hfaulty⟩
  · exact fun type name => ofDeclaration_pair

example : (ofDeclaration " const char *path\n").toOption =
    some ⟨"const char *", "path", "const char *path"⟩ := by
  decide +kernel

end MessageSchema.Field
