import MessageSchema.Generated.Units
import MessageSchema.Proofs.Memory.Layout
import MessageSchema.Proofs.Output.Script
import MessageSchema.Proofs.Table

/-!
# The members that a record declares

The body of a record's struct type is read as C reads it: every member ends with `;`, or with `,`
inside a declaration (`declaredMembers`). `SameStruct` says that what is read are the members that
the layout of the record has. Main statement: `sameStruct_iff`.

- **Reading** (`declarators`, `declaredName?`): there is a member for each separator
  (`countP_le_length_declaratorsAfter`), and what stands before a name does not change how it is
  read (`declaredName?_append`, `declaredName?_array`).
- **Declarations** (`Declares`): a text without separators that declares one member. The fields of
  a table's messages are such, if their types have no separators (`declares_field`).
- **Bodies** (`recordBody_eq`): the lines between the braces, as the emitter writes them. They are
  read as the declared members if none has a separator in it (`declaredMembers_declarationLines`),
  and else there are too many members (`unseparated_of_declaredMembers`).
- **An example** (`notSameStruct_pair`): a type that ends in `*` is taken for a pointer, whatever
  else it declares.
-/

namespace MessageSchema.Generated

open Text Output Memory

/-! ## Reading -/

/-- The characters that end a member. -/
def isSeparator (c : Char) : Bool :=
  c == ',' || c == ';'

/-- A text that ends no member. -/
def Unseparated (s : List Char) : Prop :=
  ∀ c ∈ s, isSeparator c = false

instance (s : List Char) : Decidable (Unseparated s) :=
  List.decidableBAll (isSeparator · = false) s

/-- `declarators` behind the beginning of one. -/
def declaratorsAfter (piece : List Char) : List Char → List (List Char)
  | [] => if piece.all isBlank then [] else [piece]
  | c :: cs =>
    if isSeparator c then piece :: declaratorsAfter [] cs else declaratorsAfter (piece ++ [c]) cs

/-- The texts that the separators end; behind the last there is blank space only. -/
def declarators (s : List Char) : List (List Char) :=
  declaratorsAfter [] s

/-- The text without the brackets of an array at its end. -/
def dropBrackets (s : List Char) : List Char :=
  match s.reverse with
  | ']' :: rest => ((rest.dropWhile (· != '[')).drop 1).reverse
  | _ => s

/-- The name that a declarator declares: its last word, apart from the brackets of an array. -/
def declaredName? (declarator : List Char) : Option String :=
  let name := ((dropBrackets (trimEnd declarator)).reverse.takeWhile isWordChar).reverse
  if isIdentifierChars name then some (String.ofList name) else none

/-- What member declarations declare: the name of each member, or that there is none. -/
def declaredMembers (s : List Char) : List (Option String) :=
  (declarators s).map declaredName?

section Reading

variable {before s : List Char} {name : String} {c : Char}

theorem Unseparated.append {s t : List Char} (hs : Unseparated s) (ht : Unseparated t) :
    Unseparated (s ++ t) :=
  List.forall_mem_append.mpr ⟨hs, ht⟩

/-- A text without separators is one declarator, if a separator stands behind it. -/
theorem declaratorsAfter_append {piece rest : List Char} (hs : Unseparated s)
    (hc : isSeparator c = true) :
    declaratorsAfter piece (s ++ c :: rest) = (piece ++ s) :: declarators rest := by
  induction s generalizing piece with
  | nil => simp [declaratorsAfter, hc, declarators]
  | cons d s ih =>
    obtain ⟨hd, hs⟩ := List.forall_mem_cons.mp hs
    rw [List.cons_append, declaratorsAfter, hd, if_neg Bool.false_ne_true, ih hs,
      List.append_assoc, List.singleton_append]

/-- There is a declarator for each separator. -/
theorem countP_le_length_declaratorsAfter (piece s : List Char) :
    s.countP isSeparator ≤ (declaratorsAfter piece s).length := by
  induction s generalizing piece with
  | nil => exact Nat.zero_le _
  | cons c s ih =>
    rw [declaratorsAfter]
    split
    · rename_i hc
      rw [List.countP_cons_of_pos hc, List.length_cons]
      exact Nat.succ_le_succ (ih [])
    · rename_i hc
      rw [List.countP_cons_of_neg hc]
      exact ih _

/-- An identifier ends in a word character. -/
theorem exists_last_of_isIdentifier (h : isIdentifier name = true) :
    ∃ first c, name.toList = first ++ [c] ∧ isWordChar c = true := by
  have hword := isWordChar_of_isIdentifierChars h
  rcases List.eq_nil_or_concat' name.toList with hnil | ⟨first, c, hname⟩
  · rw [isIdentifier, hnil] at h
    exact absurd h (by decide)
  · exact ⟨first, c, hname, hword c (by simp [hname])⟩

theorem trimEnd_concat (hc : isBlank c = false) : trimEnd (s ++ [c]) = s ++ [c] := by
  simp [trimEnd, hc]

theorem dropBrackets_concat (hc : isWordChar c = true) : dropBrackets (s ++ [c]) = s ++ [c] := by
  rw [dropBrackets, List.reverse_concat]
  split
  · rename_i heq
    obtain rfl := (List.cons.inj heq).1
    exact absurd hc (by decide)
  · rfl

theorem dropBrackets_array : dropBrackets (s ++ ['[', ']']) = s := by
  rw [dropBrackets, List.reverse_append]
  simp

theorem lastWord_append (h : isIdentifier name = true) (hc : isWordChar c = false) :
    ((before ++ c :: name.toList).reverse.takeWhile isWordChar).reverse = name.toList :=
  lastRun_append hc (isWordChar_of_isIdentifierChars h)

/-- A name is read whatever stands before it, if no word goes on into it. -/
theorem declaredName?_append (h : isIdentifier name = true) (hc : isWordChar c = false) :
    declaredName? (before ++ c :: name.toList) = some name := by
  obtain ⟨first, last, hname, hlast⟩ := exists_last_of_isIdentifier h
  have hends : before ++ c :: name.toList = (before ++ c :: first) ++ [last] := by simp [hname]
  have htext : dropBrackets (trimEnd (before ++ c :: name.toList)) =
      before ++ c :: name.toList := by
    rw [hends, trimEnd_concat (not_isBlank_of_isWordChar hlast), dropBrackets_concat hlast]
  rw [declaredName?, htext, lastWord_append h hc]
  simp [show isIdentifierChars name.toList = true from h]

/-- The name of an array is read likewise. -/
theorem declaredName?_array (h : isIdentifier name = true) (hc : isWordChar c = false) :
    declaredName? (before ++ c :: name.toList ++ ['[', ']']) = some name := by
  have htrim : trimEnd (before ++ c :: name.toList ++ ['[', ']']) =
      before ++ c :: name.toList ++ ['[', ']'] := by
    rw [List.append_cons]
    exact trimEnd_concat (by decide)
  rw [declaredName?, htrim, dropBrackets_array, lastWord_append h hc]
  simp [show isIdentifierChars name.toList = true from h]

end Reading

/-! ## Declarations -/

/-- A declaration of one member, whatever blank space or indentation stands before it. -/
structure Declares (declaration : String) (name : String) : Prop where
  unseparated : Unseparated declaration.toList
  declaredName? : ∀ before, declaredName? (before ++ declaration.toList) = some name

section Declarations

variable {type name : String} {f : Field} {gap : List Char}

/-- Characters of a kind that has neither separator separate nothing. -/
theorem unseparated_of_forall {s : List Char} (keep : Char → Bool) (hcomma : keep ',' = false)
    (hsemicolon : keep ';' = false) (h : ∀ c ∈ s, keep c = true) : Unseparated s := by
  intro c hc
  rw [isSeparator, Bool.or_eq_false_iff, beq_eq_false_iff_ne, beq_eq_false_iff_ne]
  constructor
  · rintro rfl
    exact Bool.false_ne_true (hcomma.symm.trans (h _ hc))
  · rintro rfl
    exact Bool.false_ne_true (hsemicolon.symm.trans (h _ hc))

theorem unseparated_of_isIdentifier (h : isIdentifier name = true) : Unseparated name.toList :=
  unseparated_of_forall isWordChar rfl rfl (isWordChar_of_isIdentifierChars h)

/-- Only the types of pointers can have separators in them. -/
theorem unseparated_of_scalar? {m : DataModel} {scalar : Scalar} (h : m.scalar? type = some scalar)
    (hkind : scalar.kind ≠ .pointer) : Unseparated type.toList := by
  refine unseparated_of_forall (fun c => isBlank c || isWordChar c) rfl rfl fun c hc => ?_
  by_cases hblank : isBlank c = true
  · simp [hblank]
  · have hword := DataModel.isWordChar_of_scalar? h hkind hc (by simpa using hblank)
    simp [hword]

/-- A field whose type has no separator is declared by its declaration. -/
theorem declares_field (h : f.Split gap) (htype : Unseparated f.type.toList)
    (hname : isIdentifier f.name = true) : Declares f.declaration f.name where
  unseparated := by
    rw [h.declaration]
    have hgap := unseparated_of_forall isBlank rfl rfl h.blank
    exact (htype.append hgap).append (unseparated_of_isIdentifier hname)
  declaredName? before := by
    obtain ⟨first, c, hfirst, hc⟩ := h.apart
    rw [h.declaration, hfirst, List.append_assoc, List.singleton_append, ← List.append_assoc]
    exact declaredName?_append hname hc

/-- So is a pair of a type and a name. -/
theorem declares_pair (htype : Unseparated type.toList) (hname : isIdentifier name = true) :
    Declares (type ++ " " ++ name) name :=
  declares_field (Field.split_ofPair type name) htype hname

/-- And a tail of this type and this name. -/
theorem declares_array (htype : Unseparated type.toList) (hname : isIdentifier name = true) :
    Declares (type ++ " " ++ name ++ "[]") name where
  unseparated := by
    rw [String.toList_append]
    exact (declares_pair htype hname).unseparated.append (by decide)
  declaredName? before := by
    have htext : before ++ (type ++ " " ++ name ++ "[]").toList =
        (before ++ type.toList) ++ ' ' :: name.toList ++ ['[', ']'] := by simp
    rw [htext]
    exact declaredName?_array hname (by decide)

end Declarations

/-! ## The body of a record -/

/-- The declarations of all members of a record. -/
def recordDeclarations (s : Settings) (t : Target) : List String :=
  envelopeDeclarations s ++ memberDeclarations t.message

/-- The text between the braces of a record's struct type. -/
def recordBody (s : Settings) (t : Target) : List Char :=
  (linesOf s.indent (recordScript s t)).tail.dropLast.flatMap String.toList

/-- Declarations on lines of their own. -/
def declarationLines (indent : List Char) (declarations : List String) : List Char :=
  declarations.flatMap fun d => indent ++ d.toList ++ [';', '\n']

theorem recordScript_eq (s : Settings) (t : Target) :
    recordScript s t =
      [.write "typedef struct \x7b",
        .indented (((recordDeclarations s t).map (· ++ ";")).map .write),
        .write ("\x7d " ++ t.record ++ ";")] := by
  rw [List.map_map]
  rfl

theorem render_declaration (indent declaration : String) :
    (Line.render indent ⟨1, declaration ++ ";"⟩).toList =
      indent.toList ++ declaration.toList ++ [';', '\n'] := by
  simp [Line.render, repeatText]

/-- The body of a struct type has a line for each declaration. -/
theorem recordBody_eq (s : Settings) (t : Target) :
    recordBody s t = declarationLines s.indent.toList (recordDeclarations s t) := by
  rw [recordBody, recordScript_eq, linesOf_block, List.append_assoc, List.singleton_append,
    List.tail_cons, List.dropLast_concat, List.map_map, List.flatMap_map, declarationLines]
  refine List.flatMap_congr fun d _ => ?_
  exact render_declaration s.indent d

section Lines

variable {indent : List Char} {declarations names : List String}

theorem declaratorsAfter_line {piece rest : List Char} {d : String}
    (hd : Unseparated (indent ++ d.toList)) :
    declaratorsAfter piece (indent ++ d.toList ++ [';', '\n'] ++ rest) =
      (piece ++ (indent ++ d.toList)) :: declaratorsAfter ['\n'] rest := by
  have htext : indent ++ d.toList ++ [';', '\n'] ++ rest =
      (indent ++ d.toList) ++ ';' :: '\n' :: rest := by simp
  rw [htext, declaratorsAfter_append hd (by decide)]
  rfl

/-- Declarations of one member each are read as these members. -/
theorem declaredMembers_declarationLines (hindent : Unseparated indent)
    (h : List.Forall₂ Declares declarations names) :
    declaredMembers (declarationLines indent declarations) = names.map some := by
  -- a line leaves its end to the line after it
  have hrest : ∀ piece : List Char, piece.all isBlank = true →
      (declaratorsAfter piece (declarationLines indent declarations)).map declaredName? =
        names.map some := by
    induction h with
    | nil =>
      intro piece hpiece
      simp [declarationLines, declaratorsAfter, hpiece]
    | @cons d name declarations names hd _ ih =>
      intro piece _
      have hfree := hindent.append hd.unseparated
      rw [declarationLines, List.flatMap_cons, declaratorsAfter_line hfree, List.map_cons,
        List.map_cons, ← List.append_assoc, hd.declaredName?]
      exact congrArg _ (ih ['\n'] (by decide))
  exact hrest [] rfl

theorem countP_declarationLines_cons (d : String) :
    (declarationLines indent (d :: declarations)).countP isSeparator =
      (indent ++ d.toList).countP isSeparator + 1 +
        (declarationLines indent declarations).countP isSeparator := by
  rw [declarationLines, List.flatMap_cons, List.countP_append, List.countP_append]
  rfl

/-- Each declaration ends in a separator. -/
theorem length_le_countP_declarationLines :
    declarations.length ≤ (declarationLines indent declarations).countP isSeparator := by
  induction declarations with
  | nil => exact Nat.zero_le _
  | cons d declarations ih =>
    rw [countP_declarationLines_cons, List.length_cons]
    omega

/-- If there are no more separators than lines, they are the ends of the lines. -/
theorem unseparated_of_countP_le
    (h : (declarationLines indent declarations).countP isSeparator ≤ declarations.length) :
    ∀ d ∈ declarations, Unseparated (indent ++ d.toList) := by
  induction declarations with
  | nil => simp
  | cons d declarations ih =>
    have hrest : declarations.length ≤ (declarationLines indent declarations).countP isSeparator :=
      length_le_countP_declarationLines
    rw [countP_declarationLines_cons, List.length_cons] at h
    refine List.forall_mem_cons.mpr ⟨fun c hc => ?_, ih (by omega)⟩
    have hzero : (indent ++ d.toList).countP isSeparator = 0 := by omega
    simpa using List.countP_eq_zero.mp hzero c hc

/-- If the lines declare one member each, no declaration has a separator within it. -/
theorem unseparated_of_declaredMembers
    (h : declaredMembers (declarationLines indent declarations) = names.map some)
    (hlength : names.length = declarations.length) :
    ∀ d ∈ declarations, Unseparated (indent ++ d.toList) := by
  have hle := countP_le_length_declaratorsAfter [] (declarationLines indent declarations)
  have hcount : (declaratorsAfter [] (declarationLines indent declarations)).length =
      names.length := by
    simpa [declaredMembers, declarators] using congrArg List.length h
  refine unseparated_of_countP_le ?_
  omega

end Lines

/-! ## Records and their layouts -/

/-- The member of the record that a statement assigns. -/
def Statement.assigned : Statement → List String
  | .setTag _ => ["type"]
  | .setSize _ => ["size"]
  | .setField name => [name]
  | .moveTail name _ => [name]
  | _ => []

/-- The members of the record that a function assigns. -/
def Function.assigned (f : Function) : List String :=
  f.body.statements.flatMap Statement.assigned

/-- The struct type of a record declares the members that its layout has, each field declares one of
them, and the in-place constructor assigns them. -/
structure SameStruct (s : Settings) (e : TaggedMessage) (r : RecordLayout) : Prop where
  members : declaredMembers (recordBody s (.ofTagged s e)) =
    (envelopeMembers ++ r.members.map (·.name)).map some
  fields : ∀ f ∈ e.message.fields, declaredMembers (f.declaration.toList ++ [';']) = [some f.name]
  assigned : ((Target.ofTagged s e).constructFunction s).assigned =
    envelopeMembers ++ r.members.map (·.name)

/-- Neither the settings nor the types of pointers end members. -/
structure SeparatorFree (s : Settings) (r : RecordLayout) : Prop where
  indent : Unseparated s.indent.toList
  typeName : Unseparated s.typeName.toList
  pointers : ∀ f ∈ r.members, f.scalar.kind = .pointer → Unseparated f.type.toList

section Records

variable {s : Settings} {e : TaggedMessage} {r : RecordLayout} {m : DataModel}

/-- The constructor assigns the members of the envelope, then the fields and the tail. -/
theorem assigned_construct (s : Settings) (e : TaggedMessage) :
    ((Target.ofTagged s e).constructFunction s).assigned =
      envelopeMembers ++ e.message.memberNames := by
  have hfields : (e.message.fields.map (Statement.setField ·.name)).flatMap Statement.assigned =
      e.message.fields.map (·.name) := by
    rw [List.flatMap_map, List.map_eq_flatMap]
    rfl
  rcases ht : e.message.tail with _ | tail <;>
    simp [Function.assigned, Target.constructFunction, Target.ofTagged, Body.statements,
      Statement.assigned, Message.memberNames, envelopeMembers, ht, hfields]

theorem length_recordDeclarations :
    (recordDeclarations s (.ofTagged s e)).length =
      (envelopeMembers ++ e.message.memberNames).length := by
  rcases ht : e.message.tail with _ | tail <;>
    simp [recordDeclarations, envelopeDeclarations, memberDeclarations, Message.memberNames,
      envelopeMembers, Target.ofTagged, ht]

/-- If no type has a separator in it, the declarations of a record declare its members. -/
theorem declares_recordDeclarations (htype : Unseparated s.typeName.toList)
    (htypes : ∀ type ∈ e.message.memberTypes, Unseparated type.toList)
    (hnames : ∀ name ∈ e.message.memberNames, isIdentifier name = true)
    (hsplit : ∀ f ∈ e.message.fields, ∃ gap, f.Split gap) :
    List.Forall₂ Declares (recordDeclarations s (.ofTagged s e))
      (envelopeMembers ++ e.message.memberNames) := by
  have hfields : List.Forall₂ Declares (e.message.fields.map (·.declaration))
      (e.message.fields.map (·.name)) := by
    rw [List.forall₂_map_left_iff, List.forall₂_map_right_iff, List.forall₂_same]
    intro f hf
    obtain ⟨gap, hgap⟩ := hsplit f hf
    refine declares_field hgap (htypes _ ?_) (hnames _ ?_)
    · exact List.mem_append_left _ (List.mem_map_of_mem hf)
    · exact List.mem_append_left _ (List.mem_map_of_mem hf)
  have htail : List.Forall₂ Declares
      (e.message.tail.map fun tail => tail.elementType ++ " " ++ tail.name ++ "[]").toList
      (e.message.tail.map (·.name)).toList := by
    cases ht : e.message.tail with
    | none => exact .nil
    | some tail =>
      refine .cons (declares_array (htypes _ ?_) (hnames _ ?_)) .nil
      · exact List.mem_append_right _ (by simp [ht])
      · exact List.mem_append_right _ (by simp [ht])
  have htag : Declares (s.typeName ++ " type") "type" := by
    have h := declares_pair htype (show isIdentifier "type" = true by decide)
    rwa [String.append_assoc, show " " ++ "type" = " type" from rfl] at h
  have hsize : Declares ("size_t" ++ " " ++ "size") "size" :=
    declares_pair (by decide) (by decide)
  have henvelope : List.Forall₂ Declares (envelopeDeclarations s) envelopeMembers :=
    .cons htag (.cons hsize .nil)
  exact List.rel_append henvelope (List.rel_append hfields htail)

/-- Only the types of pointers can have a separator in a record that has a layout. -/
theorem types_unseparated_iff (h : r.Sound m) (he : r.DeclaredBy e) :
    (∀ f ∈ r.members, f.scalar.kind = .pointer → Unseparated f.type.toList) ↔
      ∀ type ∈ e.message.memberTypes, Unseparated type.toList := by
  rw [← he.memberTypes, List.forall_mem_map]
  constructor
  · intro hpointers f hf
    by_cases hkind : f.scalar.kind = .pointer
    · exact hpointers f hf hkind
    · exact unseparated_of_scalar? (h.scalars f hf) hkind
  · intro hall f hf _
    exact hall f hf

theorem type_mem_recordDeclarations {type : String} (h : type ∈ e.message.memberTypes)
    (hsplit : ∀ f ∈ e.message.fields, ∃ gap, f.Split gap) :
    ∃ d ∈ recordDeclarations s (.ofTagged s e), ∀ c ∈ type.toList, c ∈ d.toList := by
  rcases List.mem_append.mp h with hfield | htail
  · obtain ⟨f, hf, rfl⟩ := List.mem_map.mp hfield
    obtain ⟨gap, hgap⟩ := hsplit f hf
    refine ⟨f.declaration, ?_, fun c hc => ?_⟩
    · exact List.mem_append_right _ (List.mem_append_left _ (List.mem_map_of_mem hf))
    · rw [hgap.declaration]
      exact List.mem_append_left _ (List.mem_append_left _ hc)
  · obtain ⟨tail, ht, rfl⟩ := Option.map_eq_some_iff.mp (Option.mem_toList.mp htail)
    refine ⟨tail.elementType ++ " " ++ tail.name ++ "[]", ?_, fun c hc => ?_⟩
    · refine List.mem_append_right _ (List.mem_append_right _ ?_)
      simp [Target.ofTagged, ht]
    · simp [hc]

/-- Without separators in the types, the struct type has the members that are laid out. -/
theorem SeparatorFree.sameStruct (h : SeparatorFree s r) (hr : r.Sound m) (he : r.DeclaredBy e)
    (hnames : ∀ name ∈ e.message.memberNames, isIdentifier name = true)
    (hsplit : ∀ f ∈ e.message.fields, ∃ gap, f.Split gap) : SameStruct s e r where
  members := by
    have htypes := (types_unseparated_iff hr he).mp h.pointers
    rw [recordBody_eq, he.memberNames]
    exact declaredMembers_declarationLines h.indent
      (declares_recordDeclarations h.typeName htypes hnames hsplit)
  fields f hf := by
    have htypes := (types_unseparated_iff hr he).mp h.pointers
    obtain ⟨gap, hgap⟩ := hsplit f hf
    have hmember : f.type ∈ e.message.memberTypes :=
      List.mem_append_left _ (List.mem_map_of_mem hf)
    have hname : f.name ∈ e.message.memberNames := List.mem_append_left _ (List.mem_map_of_mem hf)
    have hd := declares_field hgap (htypes _ hmember) (hnames _ hname)
    rw [declaredMembers, declarators, declaratorsAfter_append hd.unseparated (by decide),
      List.map_cons, hd.declaredName?]
    rfl
  assigned := by
    rw [he.memberNames]
    exact assigned_construct s e

/-- And only without them. -/
theorem SameStruct.separatorFree (h : SameStruct s e r) (hr : r.Sound m) (he : r.DeclaredBy e)
    (hsplit : ∀ f ∈ e.message.fields, ∃ gap, f.Split gap) : SeparatorFree s r := by
  have hmembers := h.members
  rw [recordBody_eq, he.memberNames] at hmembers
  have hlines := unseparated_of_declaredMembers hmembers length_recordDeclarations.symm
  have htag : s.typeName ++ " type" ∈ recordDeclarations s (.ofTagged s e) :=
    List.mem_append_left _ List.mem_cons_self
  have htypes := types_unseparated_iff hr he
  refine ⟨fun c hc => ?_, fun c hc => ?_, htypes.mpr fun type htype c hc => ?_⟩
  · exact hlines _ htag c (List.mem_append_left _ hc)
  · exact hlines _ htag c (List.mem_append_right _ (by simp [hc]))
  · obtain ⟨d, hd, hsub⟩ := type_mem_recordDeclarations (s := s) htype hsplit
    exact hlines d hd c (List.mem_append_right _ (hsub c hc))

end Records

namespace Pair

/-- A table with a row for each of two messages. -/
def rows : List (List Cell) :=
  [[.text "A", .text "a", .list [.text "char *q, *p"], .absent],
    [.text "B", .text "b", .list [.text "const char *path", .tuple [.text "int", .text "mode"]],
      .tuple [.text "uint16_t", .text "items"]]]

/-- A field whose declaration declares two members. -/
def field : Field :=
  ⟨"char *q, *", "p", "char *q, *p"⟩

/-- The message with this field. -/
def message : Message where
  name := "A"
  shortName := "a"
  fields := [field]

/-- A message with a pointer, a number and a tail. -/
def otherMessage : Message where
  name := "B"
  shortName := "b"
  fields := [⟨"const char *", "path", "const char *path"⟩, .ofPair "int" "mode"]
  tail := some ⟨"uint16_t", "items"⟩

/-- The columns of the table. -/
def columns : Table where
  columns := some [.name, .shortName, .fields, .tail]

/-- The table of both messages. -/
def table : Table :=
  { columns with messages := [message, otherMessage] }

theorem reachable_table : table.Reachable := by
  have hcolumns : Table.declareColumns {} ["name", "shortname", "data_fields", "va_data"] =
      .ok columns := rfl
  have hfirst : columns.declareRow rows[0] = .ok { columns with messages := [message] } := rfl
  have hsecond : Table.declareRow { columns with messages := [message] } rows[1] = .ok table := rfl
  exact .declareRow (.declareRow (.declareColumns .empty hcolumns) hfirst) hsecond

/-- The entry of the first message. -/
def entry : TaggedMessage :=
  ⟨message, 0⟩

/-- The entry of the second message. -/
def otherEntry : TaggedMessage :=
  ⟨otherMessage, 1⟩

/-- The protocol of both. -/
def protocol : Protocol :=
  ⟨[entry, otherEntry]⟩

theorem resolve_table : Protocol.resolve .unique table.messages = .ok protocol :=
  rfl

/-- The record of the first message has one pointer. -/
def record : RecordLayout where
  name := "A"
  shortName := "a"
  discriminant := 0
  fields := [⟨"p", "char *q, *", ⟨.pointer, 8, 8⟩, 16⟩]
  tail := none
  structuralSize := 24
  align := 8

/-- The record of the second message. -/
def otherRecord : RecordLayout where
  name := "B"
  shortName := "b"
  discriminant := 1
  fields := [⟨"path", "const char *", ⟨.pointer, 8, 8⟩, 16⟩, ⟨"mode", "int", ⟨.signed, 4, 4⟩, 24⟩]
  tail := some ⟨"items", "uint16_t", ⟨.unsigned, 2, 2⟩, 28⟩
  structuralSize := 32
  align := 8

/-- The layout of both. -/
def layout : ProtocolLayout :=
  ⟨.lp64, .little, .ofModel .lp64, [record, otherRecord]⟩

theorem compute_protocol : ProtocolLayout.compute protocol .lp64 .little = .ok layout :=
  rfl

theorem separatorFree_otherRecord : SeparatorFree {} otherRecord where
  indent := by decide
  typeName := by decide
  pointers := by decide

end Pair

/-- The struct type that is written for a message of a table has the members that are laid out just
if no separator stands in the type of a pointer, nor in the settings. -/
theorem sameStruct_iff (s : Settings) {t : Table} {policy : DiscriminantPolicy} {p : Protocol}
    {m : DataModel} {order : ByteOrder} {l : ProtocolLayout} {e : TaggedMessage} {r : RecordLayout}
    (ht : t.Reachable) (hp : Protocol.resolve policy t.messages = .ok p)
    (hl : ProtocolLayout.compute p m order = .ok l) (her : (e, r) ∈ p.entries.zip l.records) :
    SameStruct s e r ↔ SeparatorFree s r := by
  have he := (List.of_mem_zip her).1
  have hrecord := ProtocolLayout.ofTagged_of_mem_zip hl her
  have hr := RecordLayout.sound_of_ofTagged hrecord
  have hdeclared := RecordLayout.declaredBy_of_ofTagged hrecord
  have hnames := Protocol.isIdentifier_memberNames hp he
  have hsplit := ht.exists_split _ (Protocol.message_mem hp he)
  constructor
  · intro h
    exact h.separatorFree hr hdeclared hsplit
  · intro h
    exact h.sameStruct hr hdeclared hnames hsplit

theorem sameStruct_path :
    (Pair.otherEntry, Pair.otherRecord) ∈ Pair.protocol.entries.zip Pair.layout.records ∧
      SameStruct {} Pair.otherEntry Pair.otherRecord := by
  have her : (Pair.otherEntry, Pair.otherRecord) ∈
      Pair.protocol.entries.zip Pair.layout.records := by
    simp [Pair.protocol, Pair.layout]
  have hiff := sameStruct_iff {} Pair.reachable_table Pair.resolve_table Pair.compute_protocol her
  exact ⟨her, hiff.mpr Pair.separatorFree_otherRecord⟩

/-- A table that passes every check can have a record of which the layout misses a member. -/
theorem notSameStruct_pair :
    Pair.table.Reachable ∧ Protocol.resolve .unique Pair.table.messages = .ok Pair.protocol ∧
      ProtocolLayout.compute Pair.protocol .lp64 .little = .ok Pair.layout ∧
      (Pair.entry, Pair.record) ∈ Pair.protocol.entries.zip Pair.layout.records ∧
      declaredMembers (recordBody {} (.ofTagged {} Pair.entry)) =
        [some "type", some "size", some "q", some "p"] ∧
      Pair.record.members.map (·.name) = ["p"] ∧ ¬ SameStruct {} Pair.entry Pair.record := by
  have her : (Pair.entry, Pair.record) ∈ Pair.protocol.entries.zip Pair.layout.records := by
    simp [Pair.protocol, Pair.layout]
  have hdeclared : declaredMembers (recordBody {} (.ofTagged {} Pair.entry)) =
      [some "type", some "size", some "q", some "p"] := by
    decide +kernel
  refine ⟨Pair.reachable_table, Pair.resolve_table, Pair.compute_protocol, her, hdeclared, rfl, ?_⟩
  intro h
  have hmembers := h.members
  rw [hdeclared] at hmembers
  exact absurd hmembers (by decide)

end MessageSchema.Generated
