import MessageSchema.Proofs.Except
import MessageSchema.Proofs.Generated.Outcome

/-!
# Names in the generated constructors

The constructors of a message refer to names of file scope: to symbols of the header, to `memmove`
and to the allocating function of the settings. Inside a function such a name means something else
if a parameter or a local is called the same (`Function.CapturesNothing`). Main statement:
`capturesNothing_iff`.

- **References** (`Function.references`): the names of file scope that a body refers to, and what
  they are in the two constructors (`mem_references_construct`, `mem_references_create`).
- **Introduced names** (`Function.locals`): parameters and locals. What is named after a record
  ends in a way that no name of a constructor's own does (`accessorName_not_mem_constructorNames`),
  so the members of the message are what can hide it.
- **An example** (`hidesTag_ping`): a field that is called like the discriminant constant of its
  message is accepted, and the constructor stores the value of the field as the discriminant.
-/

namespace MessageSchema.Generated

/-! ## References and introduced names -/

/-- The types and functions that an expression refers to. -/
def SizeExpr.references : SizeExpr → List String
  | .sizeof type => [type]
  | .parameter _ => []
  | .sum left right => left.references ++ right.references
  | .product left right => left.references ++ right.references
  | .group inner => inner.references
  | .call function _ => [function]

/-- The constants, types and functions that a statement refers to. -/
def Statement.references : Statement → List String
  | .returnNullUnlessTag tag => [tag]
  | .returnAs record => [record]
  | .returnSize size => size.references
  | .setTag tag => [tag]
  | .setSize size => size.references
  | .setField _ => []
  | .moveTail _ length => "memmove" :: length.references
  | .clearResult => []
  | .allocate _ function size => function :: size.references
  | .returnUnlessAllocated _ => []
  | .returnIfNull _ => []
  | .construct constructor _ => [constructor]
  | .returnCode _ => []

/-- The local that a statement declares. -/
def Statement.locals : Statement → List String
  | .allocate .. => ["alloc_result"]
  | _ => []

namespace Function

/-- The names of file scope that the body of a function refers to. -/
def references (f : Function) : List String :=
  f.body.statements.flatMap Statement.references

/-- The names that a function introduces: its parameters and its locals. -/
def locals (f : Function) : List String :=
  f.parameters.map (·.name) ++ f.body.statements.flatMap Statement.locals

/-- No name of file scope that the body refers to is hidden by a name that the function
introduces. -/
def CapturesNothing (fileScope : List String) (f : Function) : Prop :=
  ∀ x ∈ f.references, x ∈ fileScope → x ∉ f.locals

end Function

/-- The names of file scope in the header: its symbols, and the functions from elsewhere that the
constructors call. -/
def fileScope (s : Settings) (p : Protocol) : List String :=
  (symbols s (p.entries.map (Target.ofTagged s))).map (·.text) ++ ["memmove", s.allocFunction]

namespace Target

variable {s : Settings} {t : Target} {x : String}

/-- The names of the parameters for the members: the fixed fields, the tail and its count. -/
def memberNames (t : Target) : List String :=
  t.memberParameters.map (·.name)

theorem locals_construct : (t.constructFunction s).locals = "msg" :: t.memberNames := by
  rcases ht : t.message.tail with _ | tail <;>
    simp [Function.locals, constructFunction, Body.statements, memberNames, Statement.locals, ht]

theorem locals_create :
    (t.createFunction s).locals =
      "out_msg" :: "allocator" :: (t.memberNames ++ ["alloc_result"]) := by
  simp [Function.locals, createFunction, Body.statements, memberNames, Statement.locals]

/-- What `construct` refers to. -/
theorem mem_references_construct :
    x ∈ (t.constructFunction s).references ↔ x = t.tag ∨
      x ∈ (t.storedSize s.sizeMeaning).references ∨
      ∃ tail ∈ t.message.tail, x = "memmove" ∨ x = tail.elementType := by
  rcases ht : t.message.tail with _ | tail <;>
    simp [Function.references, constructFunction, Body.statements, Statement.references, tailLength,
      SizeExpr.references, ht]

/-- What `create` refers to. -/
theorem mem_references_create :
    x ∈ (t.createFunction s).references ↔ x = s.allocFunction ∨ x = t.accessorName .size ∨
      x = t.accessorName .construct := by
  simp [Function.references, createFunction, Body.statements, Statement.references, requestedSize,
    SizeExpr.references]

/-- The stored size refers to nothing but the record or its size function. -/
theorem mem_references_storedSize (h : x ∈ (t.storedSize s.sizeMeaning).references) :
    x = t.record ∨ x = t.accessorName .size := by
  unfold storedSize at h
  split at h <;> simp_all [SizeExpr.references]

/-- No name of a constructor's own ends like the name of an accessor. -/
theorem accessorName_not_mem_constructorNames (a : Accessor) :
    t.accessorName a ∉ constructorNames := by
  intro hmem
  have hends : "_".toList ++ a.ending.toList <:+ (t.accessorName a).toList := by
    rw [accessorName, String.toList_append, String.toList_append, List.append_assoc]
    exact List.suffix_append _ _
  have hnone : ∀ n ∈ constructorNames, ¬ "_".toList ++ a.ending.toList <:+ n.toList := by
    cases a <;> decide
  exact hnone _ hmem hends

/-- The name of a record has an underscore in it. -/
theorem record_ne_msg {e : TaggedMessage} : (ofTagged s e).record ≠ "msg" := by
  intro h
  have hmem : '_' ∈ (ofTagged s e).record.toList := by
    rw [ofTagged, Settings.recordName]
    simp
  rw [h] at hmem
  exact absurd hmem (by decide)

/-- What keeps the names of file scope in the constructors of a message apart from the names that
the constructors introduce. -/
structure NamesApart (s : Settings) (fileScope : List String) (t : Target) : Prop where
  members : ∀ x ∈ (t.constructFunction s).references ++ (t.createFunction s).references,
    x ∈ fileScope → x ∉ t.memberNames
  tag : t.tag ≠ "msg"
  allocFunction : s.allocFunction ∉ ["out_msg", "allocator", "alloc_result"]
  elementType : ∀ tail ∈ t.message.tail, tail.elementType ∈ fileScope → tail.elementType ≠ "msg"

variable {p : Protocol} {e : TaggedMessage}

/-- The constant of a message is declared at file scope. -/
theorem tag_mem_fileScope (he : e ∈ p.entries) : (ofTagged s e).tag ∈ fileScope s p := by
  refine List.mem_append_left _ (List.mem_map.mpr ⟨⟨_, .tag e.message.name⟩, ?_, rfl⟩)
  refine List.mem_cons_of_mem _ (List.mem_cons_of_mem _ (List.mem_flatMap.mpr ?_))
  exact ⟨ofTagged s e, List.mem_map_of_mem he, List.mem_cons_self⟩

theorem allocFunction_mem_fileScope : s.allocFunction ∈ fileScope s p := by
  simp [fileScope]

/-- Apart from the members only `msg` can hide something in the in-place constructor, and only the
discriminant constant or the type of the tail. -/
theorem NamesApart.construct (h : (ofTagged s e).NamesApart s (fileScope s p)) :
    ((ofTagged s e).constructFunction s).CapturesNothing (fileScope s p) := by
  intro x hx hscope hlocal
  rw [locals_construct] at hlocal
  rcases List.mem_cons.mp hlocal with rfl | hmember
  · rcases mem_references_construct.mp hx with htag | hsize | ⟨tail, ht, hmove | htype⟩
    · exact h.tag htag.symm
    · rcases mem_references_storedSize hsize with hrecord | hname
      · exact record_ne_msg hrecord.symm
      · have hnot := accessorName_not_mem_constructorNames (t := ofTagged s e) .size
        rw [← hname] at hnot
        exact hnot (by decide)
    · exact absurd hmove (by decide)
    · exact h.elementType tail ht (htype ▸ hscope) htype.symm
  · exact h.members x (List.mem_append_left _ hx) hscope hmember

/-- Apart from the members only the allocating function can be hidden in the allocating
constructor. -/
theorem NamesApart.create (h : (ofTagged s e).NamesApart s (fileScope s p)) :
    ((ofTagged s e).createFunction s).CapturesNothing (fileScope s p) := by
  intro x hx hscope hlocal
  by_cases hmember : x ∈ (ofTagged s e).memberNames
  · exact h.members x (List.mem_append_right _ hx) hscope hmember
  have hown : x ∈ ["out_msg", "allocator", "alloc_result"] := by
    simpa [locals_create, hmember] using hlocal
  have hconstructor : x ∈ constructorNames := List.mem_cons_of_mem _ hown
  rcases mem_references_create.mp hx with rfl | rfl | rfl
  · exact h.allocFunction hown
  · exact accessorName_not_mem_constructorNames _ hconstructor
  · exact accessorName_not_mem_constructorNames _ hconstructor

/-- If the constructors capture no name, the members are called otherwise than what they refer to.
-/
theorem namesApart_of_capturesNothing (he : e ∈ p.entries)
    (hconstruct : ((ofTagged s e).constructFunction s).CapturesNothing (fileScope s p))
    (hcreate : ((ofTagged s e).createFunction s).CapturesNothing (fileScope s p)) :
    (ofTagged s e).NamesApart s (fileScope s p) where
  members x hx hscope hmember := by
    rcases List.mem_append.mp hx with hx | hx
    · refine hconstruct x hx hscope ?_
      rw [locals_construct]
      exact List.mem_cons_of_mem _ hmember
    · refine hcreate x hx hscope ?_
      simp [locals_create, hmember]
  tag htag := by
    have href : (ofTagged s e).tag ∈ ((ofTagged s e).constructFunction s).references :=
      mem_references_construct.mpr (.inl rfl)
    refine hconstruct _ href (tag_mem_fileScope he) ?_
    rw [locals_construct, htag]
    exact List.mem_cons_self
  allocFunction hown := by
    have href : s.allocFunction ∈ ((ofTagged s e).createFunction s).references :=
      mem_references_create.mpr (.inl rfl)
    refine hcreate _ href allocFunction_mem_fileScope ?_
    rw [locals_create]
    simp only [List.mem_cons, List.mem_append, List.not_mem_nil, or_false] at hown ⊢
    tauto
  elementType tail ht hscope htype := by
    have href : tail.elementType ∈ ((ofTagged s e).constructFunction s).references :=
      mem_references_construct.mpr (.inr (.inr ⟨tail, ht, .inr rfl⟩))
    refine hconstruct _ href hscope ?_
    rw [locals_construct, htype]
    exact List.mem_cons_self

end Target

namespace Hiding

/-- A message whose field has the name of its discriminant constant. -/
def message : Message where
  name := "PING"
  shortName := "ping"
  fields := [.ofPair "int" "GH_IPCMSG_PING"]

/-- The message with its discriminant. -/
def entry : TaggedMessage :=
  ⟨message, 0⟩

/-- The protocol of this message only. -/
def protocol : Protocol :=
  ⟨[entry]⟩

theorem resolve_message : Protocol.resolve .unique [message] = .ok protocol :=
  rfl

theorem generate_protocol : ∃ units, generate {} protocol "test.schema" = .ok units :=
  ⟨_, (generate_eq_ok {} protocol "test.schema" _).mpr ⟨nofun, by decide, rfl⟩⟩

/-- A message with a tail, none of whose members is called like something else. -/
def otherEntry : TaggedMessage :=
  ⟨{ name := "PONG", shortName := "pong", fields := [.ofPair "int" "b"],
      tail := some ⟨"char", "a"⟩ }, 1⟩

/-- The protocol of both messages. -/
def bothProtocol : Protocol :=
  ⟨[entry, otherEntry]⟩

theorem namesApart_otherEntry :
    (Target.ofTagged {} otherEntry).NamesApart {} (fileScope {} bothProtocol) where
  members := by decide
  tag := by decide
  allocFunction := by decide
  elementType := by decide

end Hiding

/-- The constructors of a message mean what they refer to just if no member is called like it, and
neither the discriminant constant, the allocating function nor the type of the tail like a name of
the constructors' own. -/
theorem capturesNothing_iff (s : Settings) {p : Protocol} {e : TaggedMessage}
    (he : e ∈ p.entries) :
    (∀ a ∈ [Accessor.construct, Accessor.create],
        ((Target.ofTagged s e).function s a).CapturesNothing (fileScope s p)) ↔
      (Target.ofTagged s e).NamesApart s (fileScope s p) := by
  constructor
  · intro h
    have hconstruct := h .construct (by simp)
    have hcreate := h .create (by simp)
    exact Target.namesApart_of_capturesNothing he hconstruct hcreate
  · intro h a ha
    rcases List.mem_cons.mp ha with rfl | ha
    · exact h.construct
    · obtain rfl := List.mem_singleton.mp ha
      exact h.create

theorem capturesNothing_pong :
    Hiding.otherEntry ∈ Hiding.bothProtocol.entries ∧
      ∀ a ∈ [Accessor.construct, Accessor.create],
        ((Target.ofTagged {} Hiding.otherEntry).function {} a).CapturesNothing
          (fileScope {} Hiding.bothProtocol) := by
  have he : Hiding.otherEntry ∈ Hiding.bothProtocol.entries := by
    simp [Hiding.bothProtocol]
  exact ⟨he, (capturesNothing_iff {} he).mpr Hiding.namesApart_otherEntry⟩

/-- Messages that pass every check can have a constructor that stores the value of a field as the
discriminant. -/
theorem hidesTag_ping :
    Protocol.resolve .unique [Hiding.message] = .ok Hiding.protocol ∧
      (∃ units, generate {} Hiding.protocol "test.schema" = .ok units) ∧
      Hiding.entry ∈ Hiding.protocol.entries ∧
      Statement.setTag "GH_IPCMSG_PING" ∈
        ((Target.ofTagged {} Hiding.entry).function {} .construct).body.statements ∧
      Parameter.mk "int GH_IPCMSG_PING" "GH_IPCMSG_PING" ∈
        ((Target.ofTagged {} Hiding.entry).function {} .construct).parameters ∧
      ¬ ((Target.ofTagged {} Hiding.entry).function {} .construct).CapturesNothing
        (fileScope {} Hiding.protocol) := by
  have he : Hiding.entry ∈ Hiding.protocol.entries := List.mem_singleton_self _
  refine ⟨Hiding.resolve_message, Hiding.generate_protocol, he, by decide, by decide, ?_⟩
  intro h
  exact h "GH_IPCMSG_PING" (by decide) (by decide) (by decide)

end MessageSchema.Generated
