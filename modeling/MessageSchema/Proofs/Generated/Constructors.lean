import MessageSchema.Proofs.Generated.Agreement
import MessageSchema.Proofs.Generated.Members
import MessageSchema.Proofs.Generated.Scope
import MessageSchema.Proofs.Text.Identifiers

/-!
# How the constructors fit together

Both constructors of a message have a parameter for each fixed field, for the tail and for its
count, besides the names that they use for themselves. The in-place constructor assigns every field
from its parameter, and the allocating one calls it with its own parameters. Main statement:
`fitTogether_constructors`.

- **Names** (`nodup_parameterNames`): the checks of a protocol keep the parameters apart from each
  other and from the names of the constructors' own.
- **Lines** (`filter_assignsTo`): what a line assigns is read off its beginning, and nothing is
  assigned twice (`nodup_assigned`).
- **Calls** (`calls_create`): the arguments are written by a loop of their own, in the order of the
  parameters.
- **Declarations** (`declaredName?_parameters`): each parameter is named as it is declared.
-/

namespace MessageSchema.Generated

open Text Output

/-! ## Names -/

/-- The names of the parameters for a message's members: the fixed fields, the tail, its count. -/
def parameterNames (m : Message) : List String :=
  m.memberNames ++ (m.tail.map (·.name ++ "_count")).toList

section Names

variable {m : Message} {s : Settings} {t : Target}

/-- The constructors have a parameter for each member of the message. -/
theorem memberNames_eq (t : Target) : t.memberNames = parameterNames t.message := by
  rcases ht : t.message.tail with _ | tail <;>
    simp [Target.memberNames, Target.memberParameters, parameterNames, Message.memberNames,
      Tail.countParameter, ht]

/-- And they pass on one argument for each. -/
theorem memberArguments_eq (t : Target) : t.memberArguments = parameterNames t.message := by
  rcases ht : t.message.tail with _ | tail <;>
    simp [Target.memberArguments, parameterNames, Message.memberNames, Tail.countParameter, ht]

/-- No count of tail elements is called like a name of the constructors. -/
theorem count_not_mem_constructorNames (name : String) : name ++ "_count" ∉ constructorNames := by
  intro hmem
  have hends : "_count".toList <:+ (name ++ "_count").toList := by
    rw [String.toList_append]
    exact List.suffix_append _ _
  have hnone : ∀ n ∈ constructorNames, ¬ "_count".toList <:+ n.toList := by decide
  exact hnone _ hmem hends

/-- Nor is any other parameter of a message with valid members. -/
theorem not_mem_constructorNames (h : Protocol.ValidMembers m) :
    ∀ name ∈ parameterNames m, name ∉ constructorNames := by
  intro name hname
  rcases List.mem_append.mp hname with hmember | hcount
  · exact (Protocol.not_mem_reservedNames.mp (h.unreserved name hmember)).2
  · obtain ⟨tail, -, rfl⟩ := Option.map_eq_some_iff.mp (Option.mem_toList.mp hcount)
    exact count_not_mem_constructorNames tail.name

/-- The parameters for the members have different names. -/
theorem nodup_parameterNames (h : Protocol.ValidMembers m) : (parameterNames m).Nodup := by
  rw [parameterNames]
  rcases ht : m.tail with _ | tail
  · simpa using h.nodup
  · exact nodup_snoc.mpr ⟨h.tailCount tail ht, h.nodup⟩

/-- `construct` declares no name twice. -/
theorem nodup_locals_construct (h : Protocol.ValidMembers t.message) :
    (t.constructFunction s).locals.Nodup := by
  rw [Target.locals_construct, memberNames_eq]
  refine List.nodup_cons.mpr ⟨fun hmem => ?_, nodup_parameterNames h⟩
  exact not_mem_constructorNames h _ hmem (by decide)

/-- `create` declares no name twice. -/
theorem nodup_locals_create (h : Protocol.ValidMembers t.message) :
    (t.createFunction s).locals.Nodup := by
  have hown (name : String) (hname : name ∈ constructorNames) : name ∉ parameterNames t.message :=
    fun hmem => not_mem_constructorNames h name hmem hname
  have hout := hown "out_msg" (by decide)
  have hallocator := hown "allocator" (by decide)
  have hresult := hown "alloc_result" (by decide)
  rw [Target.locals_create, memberNames_eq]
  simp [nodup_snoc, nodup_parameterNames h, hout, hallocator, hresult]

end Names

/-! ## Lines -/

/-- Whether a line assigns a member of the record: it begins with the member and ` = `. -/
def assignsTo (member line : String) : Bool :=
  ("msg->" ++ member ++ " = ").toList.isPrefixOf line.toList

/-- The line that assigns a value to a member. -/
def assignment (member value : String) : String :=
  "msg->" ++ member ++ " = " ++ value ++ ";"

/-- The line that moves the elements of the tail to their places. -/
def moving (name length : String) : String :=
  "memmove(msg->" ++ name ++ ", " ++ name ++ ", " ++ length ++ ");"

section Lines

variable {x y : String} {t : Target}

/-- An assignment assigns the member that it begins with. -/
theorem assignsTo_assignment (hx : isIdentifier x = true) (hy : isIdentifier y = true)
    (value : String) : assignsTo x (assignment y value) = (y == x) := by
  rw [Bool.eq_iff_iff, beq_iff_eq, assignsTo, List.isPrefixOf_iff_prefix]
  constructor
  · rintro ⟨rest, hrest⟩
    have htexts : x.toList ++ ' ' :: '=' :: ' ' :: rest =
        y.toList ++ ' ' :: '=' :: ' ' :: (value.toList ++ [';']) := by
      simpa [assignment] using hrest
    -- both texts begin with the word that ends at the first space
    have hword (z : String) (hz : isIdentifier z = true) (behind : List Char) :
        (z.toList ++ ' ' :: behind).takeWhile isWordChar = z.toList := by
      rw [List.takeWhile_append_of_pos (isWordChar_of_isIdentifierChars hz),
        List.takeWhile_cons_of_neg (by decide), List.append_nil]
    have hwords := congrArg (List.takeWhile isWordChar) htexts
    rw [hword x hx, hword y hy] at hwords
    exact String.toList_injective hwords.symm
  · rintro rfl
    exact ⟨value.toList ++ [';'], by simp [assignment]⟩

theorem toList_moving (name length : String) : (moving name length).toList =
    "memmove(".toList ++ ("msg->" ++ name ++ ", " ++ name ++ ", " ++ length ++ ");").toList := by
  show ("memmove(msg->" ++ name ++ ", " ++ name ++ ", " ++ length ++ ");").toList = _
  rw [← String.toList_append]
  simp only [← String.append_assoc]
  rfl

/-- A line that moves memory assigns no member. -/
theorem assignsTo_moving (x name length : String) : assignsTo x (moving name length) = false := by
  have hmember : "msg->".toList = 'm' :: "sg->".toList := by decide
  have hmove : "memmove(".toList = 'm' :: 'e' :: "mmove(".toList := by decide
  rw [assignsTo, toList_moving, String.toList_append, String.toList_append, hmember, hmove]
  rfl

/-- What the in-place constructor assigns, member by member. -/
def Target.assigned (s : Settings) (t : Target) : List (String × String) :=
  ("type", t.tag) :: ("size", (t.storedSize s.sizeMeaning).render) ::
    t.message.fields.map fun f => (f.name, f.name)

/-- The lines of `construct` assign the members and then move the tail. -/
theorem lines_construct (s : Settings) (t : Target) : (t.constructFunction s).lines =
    (t.assigned s).map (fun a => assignment a.1 a.2) ++
      (t.message.tail.map fun tail => moving tail.name (Target.tailLength tail).render).toList := by
  have hfields : (t.message.fields.map (Statement.setField ·.name)).map Statement.render =
      t.message.fields.map fun f => assignment f.name f.name := by
    rw [List.map_map]
    rfl
  have htail : (t.message.tail.map fun tail =>
      Statement.moveTail tail.name (Target.tailLength tail)).toList.map Statement.render =
        (t.message.tail.map fun tail =>
          moving tail.name (Target.tailLength tail).render).toList := by
    cases t.message.tail <;> rfl
  have hassigned : (t.assigned s).map (fun a => assignment a.1 a.2) =
      [assignment "type" t.tag, assignment "size" (t.storedSize s.sizeMeaning).render] ++
        t.message.fields.map fun f => assignment f.name f.name := by
    simp [Target.assigned, Function.comp_def]
  rw [Function.lines, Target.constructFunction, Body.statements, List.map_append, List.map_append,
    hfields, htail, hassigned]
  rfl

/-- Nothing is assigned twice: the checks of a protocol keep the fields apart from each other and
from the members that every record begins with. -/
theorem nodup_assigned (s : Settings) (h : Protocol.ValidMembers t.message) :
    ((t.assigned s).map (·.1)).Nodup := by
  have hfields : (t.message.fields.map (·.name)).Nodup := (List.nodup_append.mp h.nodup).1
  have henvelope (y : String) (hy : y ∈ envelopeMembers) : y ∉ t.message.fields.map (·.name) :=
    fun hmem => (Protocol.not_mem_reservedNames.mp
      (h.unreserved y (List.mem_append_left _ hmem))).1 hy
  have htype := henvelope "type" (by decide)
  have hsize := henvelope "size" (by decide)
  rw [Target.assigned, List.map_cons, List.map_cons, List.map_map]
  refine List.nodup_cons.mpr ⟨?_, List.nodup_cons.mpr ⟨hsize, hfields⟩⟩
  have hdiffer : "type" ≠ "size" := by decide
  exact fun hmem => (List.mem_cons.mp hmem).elim hdiffer htype

theorem isIdentifier_assigned (s : Settings) (h : Protocol.ValidMembers t.message) :
    ∀ a ∈ t.assigned s, isIdentifier a.1 = true := by
  have htype : isIdentifier "type" = true := by decide
  have hsize : isIdentifier "size" = true := by decide
  refine List.forall_mem_cons.mpr ⟨htype, List.forall_mem_cons.mpr ⟨hsize, ?_⟩⟩
  rw [List.forall_mem_map]
  intro f hf
  exact isIdentifier_iff.mpr
    (h.identifiers f.name (List.mem_append_left _ (List.mem_map_of_mem hf)))

/-- Exactly one line assigns a member that the constructor assigns. -/
theorem filter_assignsTo (s : Settings) (h : Protocol.ValidMembers t.message) {value : String}
    (hx : (x, value) ∈ t.assigned s) :
    (t.constructFunction s).lines.filter (assignsTo x) = [assignment x value] := by
  have hident := isIdentifier_assigned s h
  have hown : ∀ a ∈ t.assigned s,
      (assignsTo x ∘ fun a => assignment a.1 a.2) a = (a.1 == x) :=
    fun a ha => assignsTo_assignment (hident _ hx) (hident a ha) a.2
  have htail : (t.message.tail.map fun tail =>
      moving tail.name (Target.tailLength tail).render).toList.filter (assignsTo x) = [] := by
    cases t.message.tail with
    | none => rfl
    | some tail => exact List.filter_cons_of_neg (by simp [assignsTo_moving])
  rw [lines_construct, List.filter_append, htail, List.append_nil, List.filter_map,
    List.filter_congr hown, filter_key_eq_singleton Prod.fst (nodup_assigned s h) hx]
  rfl

end Lines

/-! ## Calls -/

/-- The constructor that a statement calls, and what it passes besides the record. -/
def Statement.call? : Statement → Option (String × List String)
  | .construct constructor arguments => some (constructor, arguments)
  | _ => none

/-- The constructors that a function calls. -/
def Function.calls (f : Function) : List (String × List String) :=
  f.body.statements.filterMap Statement.call?

section Calls

variable (s : Settings) (t : Target)

theorem tail_parameters_construct :
    (t.constructFunction s).parameters.tail.map (·.name) = parameterNames t.message :=
  memberNames_eq t

/-- `create` calls `construct` once, with all parameters behind the record. -/
theorem calls_create : (t.createFunction s).calls =
    [((t.constructFunction s).name, (t.constructFunction s).parameters.tail.map (·.name))] := by
  rw [tail_parameters_construct, ← memberArguments_eq]
  rfl

/-- The line of this call, as it is written. -/
theorem call_mem_lines_create :
    (t.constructFunction s).name ++ "(" ++
        joined ", " ("*out_msg" :: (t.constructFunction s).parameters.tail.map (·.name)) ++ ");" ∈
      (t.createFunction s).lines := by
  rw [tail_parameters_construct, ← memberArguments_eq]
  refine List.mem_map.mpr ⟨.construct (t.accessorName .construct) t.memberArguments, ?_, rfl⟩
  simp [Target.createFunction, Body.statements]

end Calls

section Declarations

variable {t : Target}

theorem isIdentifier_count {name : String} (h : isIdentifier name = true) :
    isIdentifier (name ++ "_count") = true := by
  have hcount : "_count".toList.all isWordChar = true := by decide
  exact (isIdentifier_append hcount).mpr (.inl h)

/-- What stands before the blank of a declaration does not matter. -/
theorem declaredName?_blank {declaration name : String} (type : String)
    (h : isIdentifier name = true) (hdeclaration : declaration = type ++ " " ++ name) :
    declaredName? declaration.toList = some name := by
  have htext : declaration.toList = type.toList ++ ' ' :: name.toList := by simp [hdeclaration]
  rw [htext]
  exact declaredName?_append h (by decide)

/-- The declaration of a field declares its name. -/
theorem declaredName?_field {f : Field} {gap : List Char} (h : f.Split gap)
    (hname : isIdentifier f.name = true) : declaredName? f.declaration.toList = some f.name := by
  obtain ⟨before, c, hbefore, hc⟩ := h.apart
  rw [h.declaration, hbefore, List.append_assoc]
  exact declaredName?_append hname hc

/-- Every parameter for a member is declared under its name. -/
theorem declaredName?_memberParameters (h : Protocol.ValidMembers t.message)
    (hsplit : ∀ f ∈ t.message.fields, ∃ gap, f.Split gap) :
    ∀ q ∈ t.memberParameters, declaredName? q.declaration.toList = some q.name := by
  have hident : ∀ name ∈ t.message.memberNames, isIdentifier name = true :=
    fun name hname => isIdentifier_iff.mpr (h.identifiers name hname)
  rw [Target.memberParameters, List.forall_mem_append, List.forall_mem_map]
  constructor
  · intro f hf
    obtain ⟨gap, hgap⟩ := hsplit f hf
    exact declaredName?_field hgap (hident _ (List.mem_append_left _ (List.mem_map_of_mem hf)))
  · rcases ht : t.message.tail with _ | tail
    · simp
    · have htail : isIdentifier tail.name = true :=
        hident _ (List.mem_append_right _ (by simp [ht]))
      have hpointer : tail.elementType ++ " * " ++ tail.name =
          tail.elementType ++ " *" ++ " " ++ tail.name := by
        rw [show tail.elementType ++ " *" ++ " " = tail.elementType ++ (" *" ++ " ") from
          String.append_assoc]
        rfl
      intro q hq
      rcases List.mem_cons.mp hq with rfl | hq
      · exact declaredName?_blank _ htail hpointer
      · obtain rfl := List.mem_singleton.mp hq
        exact declaredName?_blank "size_t" (isIdentifier_count htail) rfl

end Declarations

/-- The constructors of a message, `construct` in place and `create` with an allocator: all names of
a constructor differ, each fixed field is assigned once and from the parameter of its name, and the
call in `create` passes the remaining parameters of `construct` in their order. A constructor is
written as its signature, which holds the declarations of its parameters, and a block of its lines.
The parameters are what their declarations declare, if the declarations of the fields end in the
names. -/
structure FitTogether (m : Message) (construct create : Function) : Prop where
  constructSignature : construct.signature = construct.result ++ " " ++ construct.name ++ "(" ++
    joined ", " (construct.parameters.map (·.declaration))
  createSignature : create.signature = create.result ++ " " ++ create.name ++ "(" ++
    joined ", " (create.parameters.map (·.declaration))
  constructText : ∀ indent, construct.bodyText indent = Function.blockText indent construct.lines
  createText : ∀ indent, create.bodyText indent = Function.blockText indent create.lines
  constructNames : construct.locals = "msg" :: parameterNames m
  createNames : create.locals = "out_msg" :: "allocator" :: (parameterNames m ++ ["alloc_result"])
  constructDistinct : construct.locals.Nodup
  createDistinct : create.locals.Nodup
  assigned : ∀ x ∈ m.fields.map (·.name), x ∈ construct.parameters.map (·.name) ∧
    construct.lines.filter (assignsTo x) = [assignment x x]
  calls : create.calls = [(construct.name, construct.parameters.tail.map (·.name))]
  callLine : construct.name ++ "(" ++
    joined ", " ("*out_msg" :: construct.parameters.tail.map (·.name)) ++ ");" ∈ create.lines
  passed : ∀ q ∈ construct.parameters.tail, q ∈ create.parameters
  declared : (∀ f ∈ m.fields, ∃ gap, f.Split gap) →
    ∀ q ∈ construct.parameters ++ create.parameters,
      declaredName? q.declaration.toList = some q.name

theorem declaredName?_parameters {s : Settings} {t : Target} (h : Protocol.ValidMembers t.message)
    (hsplit : ∀ f ∈ t.message.fields, ∃ gap, f.Split gap) :
    ∀ q ∈ (t.constructFunction s).parameters ++ (t.createFunction s).parameters,
      declaredName? q.declaration.toList = some q.name := by
  have hmembers := declaredName?_memberParameters h hsplit
  have hpointer (type stars name : String) (hname : isIdentifier name = true) :
      declaredName? (type ++ (" " ++ stars ++ " " ++ name)).toList = some name :=
    declaredName?_blank (type ++ " " ++ stars) hname (by simp only [String.append_assoc])
  rw [List.forall_mem_append]
  constructor
  · exact List.forall_mem_cons.mpr ⟨hpointer t.record "*" "msg" (by decide), hmembers⟩
  · refine List.forall_mem_cons.mpr ⟨hpointer t.record "**" "out_msg" (by decide), ?_⟩
    exact List.forall_mem_cons.mpr
      ⟨hpointer s.allocatorType "*" "allocator" (by decide), hmembers⟩

/-- The constructors of a message with valid members fit together. -/
theorem fitTogether_of_validMembers (s : Settings) {t : Target}
    (h : Protocol.ValidMembers t.message) :
    FitTogether t.message (t.constructFunction s) (t.createFunction s) where
  constructSignature := Function.signature_eq _
  createSignature := Function.signature_eq _
  constructText := Function.bodyText_block rfl
  createText := Function.bodyText_block rfl
  constructNames := by rw [Target.locals_construct, memberNames_eq]
  createNames := by rw [Target.locals_create, memberNames_eq]
  constructDistinct := nodup_locals_construct h
  createDistinct := nodup_locals_create h
  assigned x hx := by
    have hassigned : (x, x) ∈ t.assigned s := by
      obtain ⟨f, hf, rfl⟩ := List.mem_map.mp hx
      exact List.mem_cons_of_mem _ (List.mem_cons_of_mem _
        (List.mem_map_of_mem (f := fun f : Field => (f.name, f.name)) hf))
    refine ⟨?_, filter_assignsTo s h hassigned⟩
    refine List.mem_cons_of_mem _ ?_
    have hmember : x ∈ parameterNames t.message :=
      List.mem_append_left _ (List.mem_append_left _ hx)
    rwa [← tail_parameters_construct s t] at hmember
  calls := calls_create s t
  callLine := call_mem_lines_create s t
  passed q hq := List.mem_cons_of_mem _ (List.mem_cons_of_mem _ hq)
  declared := declaredName?_parameters h

/-- A message with two fields and a tail. -/
def textMessage : Message where
  name := "TEXT"
  shortName := "text"
  fields := [.ofPair "int" "line", .ofPair "const char *" "font"]
  tail := some ⟨"char", "chars"⟩

/-- The constructors of every message of a protocol fit together, and where units are generated both
are defined in one of them. -/
theorem fitTogether_constructors (s : Settings) {policy : DiscriminantPolicy}
    {messages : List Message} {p : Protocol} {e : TaggedMessage}
    (h : Protocol.resolve policy messages = .ok p) (he : e ∈ p.entries) :
    FitTogether e.message ((Target.ofTagged s e).constructFunction s)
        ((Target.ofTagged s e).createFunction s) ∧
      ∀ sourceName units, generate s p sourceName = .ok units →
        ∀ f ∈ [(Target.ofTagged s e).constructFunction s, (Target.ofTagged s e).createFunction s],
          ∃ u ∈ units, ∃ lead, StandsIn (f.definitionText s.indent lead) u.text := by
  have hvalid : Protocol.ValidMembers (Target.ofTagged s e).message :=
    (Protocol.validMessage_of_mem h he).members
  refine ⟨fitTogether_of_validMembers s hvalid, ?_⟩
  intro sourceName units hunits f hf
  rcases List.mem_cons.mp hf with rfl | hf
  · exact definitionText_standsIn_unit hunits he .construct
  · obtain rfl := List.mem_singleton.mp hf
    exact definitionText_standsIn_unit hunits he .create

theorem fitTogether_text :
    Protocol.resolve .unique [textMessage] = .ok ⟨[⟨textMessage, 0⟩]⟩ ∧
      FitTogether textMessage ((Target.ofTagged {} ⟨textMessage, 0⟩).constructFunction {})
        ((Target.ofTagged {} ⟨textMessage, 0⟩).createFunction {}) := by
  have h : Protocol.resolve .unique [textMessage] = .ok ⟨[⟨textMessage, 0⟩]⟩ := rfl
  exact ⟨h, (fitTogether_constructors {} h (List.mem_singleton_self _)).1⟩

end MessageSchema.Generated
