import MessageSchema.Proofs.Generated.Constructors
import MessageSchema.Proofs.Generated.Expressions
import MessageSchema.Proofs.Memory.Allocation
import MessageSchema.Proofs.Memory.View

/-!
# Sizes in the generated functions

The generated C computes the size of a record, what its size member holds, the size to ask the
allocator for and the length of its tail. `SizesAgree` compares the values of these expressions, as
they are written in the functions, with what `Memory` does for a record of the same message. Main
statement: `sizesAgree_of_compute`.

- **Values** (`SizeExpr.eval`): an expression has a value on a machine (`Machine`), which tells the
  sizes of types and where `size_t` wraps around; a call evaluates what the function returns.
- **Texts** (`Target.Writes`): a text in a function is read as the expression that has the value
  (`read?_render`), if the names of the message can be told from the punctuation around them
  (`Target.IsLegible`). Where in a function the text stands is said by its lines.
- **Records** (`Machine.Describes`): the machine on which the types have the sizes of a layout, with
  the size function of the message in scope. It is in the scope of a header
  (`find?_sizeFunction`).
-/

namespace MessageSchema.Generated

open Memory Output Text

/-! ## Values of expressions -/

/-- What C knows of its types: their sizes, and how many numbers `size_t` has. -/
structure Machine where
  sizeof : String → Nat
  limit : Nat

namespace SizeExpr

/-- The value of an expression, where `calls` are the results of functions. Arithmetic is that of
`size_t`. -/
def eval (c : Machine) (calls : String → List Nat → Option Nat) (values : String → Option Nat) :
    SizeExpr → Option Nat
  | .sizeof type => some (c.sizeof type)
  | .parameter name => values name
  | .sum left right => do
    return ((← left.eval c calls values) + (← right.eval c calls values)) % c.limit
  | .product left right => do
    return ((← left.eval c calls values) * (← right.eval c calls values)) % c.limit
  | .group inner => inner.eval c calls values
  | .call function arguments => do calls function (← arguments.mapM values)

end SizeExpr

/-- The values of the parameters of a function in a call. -/
def Function.bound (f : Function) (values : List Nat) (name : String) : Option Nat :=
  ((f.parameters.map (·.name)).zip values).lookup name

/-- The result of a function that only returns a size and calls nothing. -/
def Function.call (c : Machine) (f : Function) (values : List Nat) : Option Nat :=
  match f.body with
  | .line (.returnSize size) =>
    if values.length = f.parameters.length then size.eval c (fun _ _ => none) (f.bound values)
    else none
  | _ => none

/-- The results of the functions in scope. -/
def callsTo (c : Machine) (functions : List Function) (name : String) (values : List Nat) :
    Option Nat :=
  (functions.find? (·.name == name)).bind (·.call c values)

/-! ## Texts of expressions -/

/-- The names that stand in the sizes of a message can be told from what is around them: in the name
of its record and in the type of its tail there is no punctuation of expressions. -/
structure Target.IsLegible (t : Target) : Prop where
  record : isName t.record.toList = true
  elementType : ∀ tail ∈ t.message.tail, ')' ∉ tail.elementType.toList

section Legible

variable {s : Settings} {t : Target} {tail : Tail}

theorem isNameChar_of_isWordChar {x : Char} (h : isWordChar x = true) : isNameChar x = true := by
  have hmember : x ∉ ['(', ')', '+', '*', ','] := by
    have hmarks : ['(', ')', '+', '*', ','].all (!isWordChar ·) = true := by decide
    intro hmem
    have hnot := List.all_eq_true.mp hmarks x hmem
    rw [h] at hnot
    cases hnot
  simp [isNameChar, not_isBlank_of_isWordChar h, hmember]

/-- Word characters behind a name go on with it. -/
theorem isName_append {name behind : String} (h : isName name.toList = true)
    (hbehind : behind.toList.all isWordChar = true) : isName (name ++ behind).toList = true := by
  rw [String.toList_append]
  refine isName_of_forall (List.append_ne_nil_of_left_ne_nil (ne_nil_of_isName h) _) ?_
  exact List.forall_mem_append.mpr ⟨isNameChar_of_isName h,
    fun x hx => isNameChar_of_isWordChar (List.all_eq_true.mp hbehind x hx)⟩

/-- An identifier is one name. -/
theorem isName_of_isIdentifier {name : String} (h : isIdentifier name = true) :
    isName name.toList = true :=
  isName_of_forall (ne_nil_of_isIdentifierChars h)
    fun x hx => isNameChar_of_isWordChar (isWordChar_of_isIdentifierChars h x hx)

theorem not_mem_of_isName {name : String} (h : isName name.toList = true) : ')' ∉ name.toList :=
  fun hmem => absurd (isNameChar_of_isName h _ hmem) (by decide)

theorem isName_countParameter (hm : Protocol.ValidMembers t.message)
    (ht : t.message.tail = some tail) : isName tail.countParameter.toList = true := by
  have hmem : tail.name ∈ t.message.memberNames := List.mem_append_right _ (by simp [ht])
  exact isName_of_isIdentifier (isIdentifier_count (isIdentifier_iff.mpr (hm.identifiers _ hmem)))

variable (h : t.IsLegible)

include h

/-- The size that is returned can be read back. -/
theorem isLegible_sizeBody : t.sizeBody.IsLegible := by
  unfold Target.sizeBody
  split
  · exact not_mem_of_isName h.record
  · rename_i tail ht
    have hcount : isName "count".toList = true := by decide
    exact ⟨not_mem_of_isName h.record, hcount, h.elementType tail ht⟩

theorem isLegible_call {arguments : List String}
    (harguments : ∀ a ∈ arguments, isName a.toList = true) :
    (SizeExpr.call (t.accessorName .size) arguments).IsLegible := by
  have hsize : t.accessorName .size = t.record ++ "_size" := String.append_assoc ..
  refine ⟨?_, ?_, harguments⟩
  · rw [hsize]
    exact isName_append h.record (by decide)
  · -- the name of the function has an underscore in it
    intro heq
    have hmem : '_' ∈ (t.accessorName .size).toList := by rw [hsize]; simp
    rw [heq] at hmem
    exact absurd hmem (by decide)

/-- The size that is asked for can be read back. -/
theorem isLegible_requestedSize (hm : Protocol.ValidMembers t.message) :
    t.requestedSize.IsLegible := by
  refine isLegible_call h fun a ha => ?_
  obtain ⟨tail, ht, rfl⟩ := Option.map_eq_some_iff.mp (Option.mem_toList.mp ha)
  exact isName_countParameter hm ht

/-- The size that is stored can be read back. -/
theorem isLegible_storedSize (hm : Protocol.ValidMembers t.message) (meaning : SizeMeaning) :
    (t.storedSize meaning).IsLegible := by
  unfold Target.storedSize
  split
  · exact not_mem_of_isName h.record
  · rename_i tail ht
    refine isLegible_call h fun a ha => ?_
    obtain rfl := List.mem_singleton.mp ha
    exact isName_countParameter hm ht
  · rename_i tail ht
    exact ⟨not_mem_of_isName h.record, isName_countParameter hm ht⟩

theorem isLegible_tailLength (hm : Protocol.ValidMembers t.message)
    (ht : t.message.tail = some tail) : (Target.tailLength tail).IsLegible :=
  ⟨isName_countParameter hm ht, h.elementType tail ht⟩

end Legible

/-! ## Lines with sizes -/

/-- Whether a line moves memory. -/
def movesMemory (line : String) : Bool :=
  "memmove(".toList.isPrefixOf line.toList

section Lines

variable (s : Settings) (t : Target)

/-- The size function returns one expression. -/
theorem bodyText_size (indent : String) : (t.function s .size).bodyText indent =
    " \x7b return " ++ t.sizeBody.render ++ "; \x7d\n" := by
  show " \x7b " ++ ("return " ++ t.sizeBody.render ++ ";") ++ " \x7d\n" = _
  simp only [String.append_assoc]
  rfl

/-- Besides the tail nothing is moved. -/
theorem filter_movesMemory : (t.constructFunction s).lines.filter movesMemory =
    (t.message.tail.map fun tail => moving tail.name (Target.tailLength tail).render).toList := by
  have hassignment (member value : String) : movesMemory (assignment member value) = false := by
    have hmember : "msg->".toList = 'm' :: "sg->".toList := by decide
    have hmove : "memmove(".toList = 'm' :: 'e' :: "mmove(".toList := by decide
    rw [movesMemory, assignment, String.toList_append, String.toList_append, String.toList_append,
      String.toList_append, hmember, hmove]
    rfl
  have hmoving (name length : String) : movesMemory (moving name length) = true := by
    rw [movesMemory, List.isPrefixOf_iff_prefix, toList_moving]
    exact List.prefix_append _ _
  have hassigned : ((t.assigned s).map fun a => assignment a.1 a.2).filter movesMemory = [] := by
    rw [List.filter_map]
    refine List.map_eq_nil_iff.mpr (List.filter_eq_nil_iff.mpr fun a _ => ?_)
    simp [hassignment]
  rw [lines_construct, List.filter_append, hassigned, List.nil_append]
  cases t.message.tail with
  | none => rfl
  | some tail => exact List.filter_cons_of_pos (hmoving _ _)

end Lines

/-! ## Records -/

/-- The machine has the types of a record, and its size function is in scope. -/
structure Machine.Describes (c : Machine) (functions : List Function) (s : Settings) (t : Target)
    (r : RecordLayout) : Prop where
  record : c.sizeof t.record = r.structuralSize
  element : ∀ tail ∈ t.message.tail, ∀ u ∈ r.tail, c.sizeof tail.elementType = u.scalar.size
  sizeFunction : functions.find? (·.name == t.accessorName .size) = some (t.function s .size)

/-- An expression whose text is grouped as it is, and that comes to `value` wherever the variables
`names` are `count`. -/
def SizeExpr.ComesTo (x : SizeExpr) (c : Machine) (functions : List Function)
    (names : List String) (count value : Nat) : Prop :=
  x.IsGrouped ∧ ∀ values : String → Option Nat, (∀ n ∈ names, values n = some count) →
    x.eval c (callsTo c functions) values = some value

/-- The names of the parameter for the number of tail elements: one, or none without a tail. -/
def Target.countNames (t : Target) : List String :=
  (t.message.tail.map (·.countParameter)).toList

/-- The tail of a message and that of its record are there together. -/
theorem tail_cases {e : TaggedMessage} {r : RecordLayout} (h : r.DeclaredBy e) :
    e.message.tail = none ∧ r.tail = none ∨
      ∃ tail u, e.message.tail = some tail ∧ r.tail = some u := by
  have htail := h.tail
  rcases hm : e.message.tail with _ | tail <;> rcases hr : r.tail with _ | u <;>
    simp_all

section Values

variable {c : Machine} {functions : List Function} {s : Settings} {e : TaggedMessage}
  {r : RecordLayout} {count size : Nat}

/-- The size function takes as many values as there are counts, and calls the one `count`. -/
theorem bound_size (s : Settings) (e : TaggedMessage) (count : Nat) :
    (e.message.tail.map fun _ => count).toList.length =
        ((Target.ofTagged s e).function s .size).parameters.length ∧
      (e.message.tail.isSome → ((Target.ofTagged s e).function s .size).bound
        (e.message.tail.map fun _ => count).toList "count" = some count) := by
  rcases hm : e.message.tail with _ | tail <;>
    simp [Target.function, Target.sizeFunction, Target.ofTagged, Message.isVariable,
      Function.bound, hm]

variable (hc : c.Describes functions s (.ofTagged s e) r) (hr : r.DeclaredBy e)
  (hsize : r.recordSize? count = some size) (hfits : size < c.limit)

include hc hsize hfits

/-- The length of a tail is computed without wrapping around. -/
theorem comesTo_tailLength {tail : Tail} {u : MemberLayout} (hm : tail ∈ e.message.tail)
    (hu : u ∈ r.tail) :
    (Target.tailLength tail).ComesTo c functions (Target.ofTagged s e).countNames count
      (count * u.scalar.size) := by
  have htotal := ((RecordLayout.recordSize?_eq_some.mp hsize).1 u hu).1
  have hproduct : count * u.scalar.size % c.limit = count * u.scalar.size :=
    Nat.mod_eq_of_lt (by omega)
  refine ⟨by simp [Target.tailLength, SizeExpr.IsGrouped, SizeExpr.level], fun values hvalues => ?_⟩
  have hcount : values tail.countParameter = some count :=
    hvalues _ (by simp [Target.countNames, Target.ofTagged, Option.mem_def.mp hm])
  simp [Target.tailLength, SizeExpr.eval, hcount, hc.element tail hm u hu, hproduct]

include hr

/-- The size of a record is computed without wrapping around. -/
theorem eval_sizeBody (calls : String → List Nat → Option Nat) {values : String → Option Nat}
    (hcount : e.message.tail.isSome → values "count" = some count) :
    (Target.ofTagged s e).sizeBody.eval c calls values = some size := by
  obtain ⟨htail, hnone⟩ := RecordLayout.recordSize?_eq_some.mp hsize
  rcases tail_cases hr with ⟨hm, hu⟩ | ⟨tail, u, hm, hu⟩
  · have hbody : (Target.ofTagged s e).sizeBody = .sizeof (Target.ofTagged s e).record := by
      simp only [Target.sizeBody, Target.ofTagged, hm]
    rw [hbody, SizeExpr.eval, hc.record, (hnone hu).2]
  · have hbody : (Target.ofTagged s e).sizeBody = .sum (.sizeof (Target.ofTagged s e).record)
        (.group (.product (.parameter "count") (.sizeof tail.elementType))) := by
      simp only [Target.sizeBody, Target.ofTagged, hm]
    have htotal := (htail u hu).1
    have hproduct : count * u.scalar.size % c.limit = count * u.scalar.size :=
      Nat.mod_eq_of_lt (by omega)
    have hsum : (r.structuralSize + count * u.scalar.size) % c.limit = size := by
      rw [Nat.add_comm, htotal, Nat.mod_eq_of_lt hfits]
    simp [hbody, SizeExpr.eval, hc.record, hc.element tail hm u hu, hcount (by rw [hm]; rfl),
      hproduct, hsum]

/-- The expression of the size function comes to the size of the record. -/
theorem comesTo_sizeBody :
    (Target.ofTagged s e).sizeBody.ComesTo c functions
      (((Target.ofTagged s e).function s .size).parameters.map (·.name)) count size := by
  refine ⟨?_, fun values hvalues => eval_sizeBody hc hr hsize hfits _ fun hm => hvalues _ ?_⟩
  · unfold Target.sizeBody
    split <;> simp [SizeExpr.IsGrouped, SizeExpr.level]
  · simp [Target.function, Target.sizeFunction, Target.ofTagged, Message.isVariable, hm]

/-- The size function returns the size of a record. -/
theorem call_size :
    ((Target.ofTagged s e).function s .size).call c (e.message.tail.map fun _ => count).toList =
      some size := by
  obtain ⟨hlength, hcount⟩ := bound_size s e count
  show (if _ then _ else none) = _
  rw [if_pos hlength]
  exact eval_sizeBody hc hr hsize hfits _ hcount

/-- What comes of a call of the size function. -/
theorem comesTo_call :
    (SizeExpr.call ((Target.ofTagged s e).accessorName .size)
      (Target.ofTagged s e).countNames).ComesTo c functions (Target.ofTagged s e).countNames count
        size := by
  refine ⟨trivial, fun values hvalues => ?_⟩
  have harguments : (Target.ofTagged s e).countNames.mapM values =
      some (e.message.tail.map fun _ => count).toList := by
    simp only [Target.countNames, Target.ofTagged] at hvalues ⊢
    rcases hm : e.message.tail with _ | tail <;> simp_all
  rw [SizeExpr.eval, harguments]
  show callsTo c functions _ _ = _
  rw [callsTo, hc.sizeFunction]
  exact call_size hc hr hsize hfits

/-- The constructor stores what the size member is to hold. -/
theorem comesTo_storedSize {m : DataModel} (hs : r.Sound m) (meaning : SizeMeaning) :
    ((Target.ofTagged s e).storedSize meaning).ComesTo c functions
      (Target.ofTagged s e).countNames count (r.storedSize meaning size count) := by
  have hle : r.storedSize meaning size count ≤ size := hs.storedSize_le hsize
  rw [RecordLayout.storedSize_eq] at hle ⊢
  rcases tail_cases hr with ⟨hm, hu⟩ | ⟨tail, u, hm, hu⟩
  · have hexpr : (Target.ofTagged s e).storedSize meaning =
        .sizeof (Target.ofTagged s e).record := by
      simp only [Target.storedSize, Target.ofTagged, hm]
    have hsizeof := ((RecordLayout.recordSize?_eq_some.mp hsize).2 hu).2
    rw [hexpr]
    exact ⟨trivial, fun values _ => by simp [SizeExpr.eval, hc.record, hu, hsizeof]⟩
  · cases meaning with
    | bytes =>
      have hexpr : (Target.ofTagged s e).storedSize .bytes =
          .call ((Target.ofTagged s e).accessorName .size) (Target.ofTagged s e).countNames := by
        simp [Target.storedSize, Target.countNames, Target.ofTagged, hm]
      rw [hexpr]
      exact comesTo_call hc hr hsize hfits
    | legacy =>
      have hexpr : (Target.ofTagged s e).storedSize .legacy =
          .sum (.sizeof (Target.ofTagged s e).record) (.parameter tail.countParameter) := by
        simp only [Target.storedSize, Target.ofTagged, hm]
      rw [hexpr]
      refine ⟨by simp [SizeExpr.IsGrouped, SizeExpr.level], fun values hvalues => ?_⟩
      have hcount : values tail.countParameter = some count :=
        hvalues _ (by simp [Target.countNames, Target.ofTagged, hm])
      -- elements have bytes, so a number of elements fits where their bytes do
      have hsum : (r.structuralSize + count) % c.limit = r.structuralSize + count :=
        Nat.mod_eq_of_lt (Nat.lt_of_le_of_lt (by simpa [hu] using hle) hfits)
      simp [SizeExpr.eval, hc.record, hcount, hsum, hu]

end Values

/-- In a header whose functions differ the size functions are found. -/
theorem find?_sizeFunction {s : Settings} {p : Protocol} {e : TaggedMessage}
    (h : ((functionsOf s p).map (·.name)).Nodup) (he : e ∈ p.entries) :
    (functionsOf s p).find? (·.name == (Target.ofTagged s e).accessorName .size) =
      some ((Target.ofTagged s e).function s .size) := by
  rw [← name_function s]
  refine find?_key_eq_some Function.name h (List.mem_flatMap.mpr ?_)
  exact ⟨_, List.mem_map_of_mem he, List.mem_map_of_mem (by decide)⟩

/-! ## Records at run time -/

/-- What the records with `count` tail elements hold in their size members. All that a record takes
is built where there is room for it, if the size member can count the bytes. -/
structure StoresSize (l : ProtocolLayout) (r : RecordLayout) (meaning : SizeMeaning)
    (count size stored : Nat) : Prop where
  stores : ∀ fields tail memory after, tail.length = count →
    (l.constructInPlace r fields tail meaning).outcome memory = (.ok (), after) →
    (Envelope.mk after l.envelope l.order).sizeField = stored
  builds : ∀ fields tail memory, tail.length = count → r.Accepts fields tail →
    size ≤ memory.length → size < twoPow (8 * l.envelope.size.size) →
    ∃ after, (l.constructInPlace r fields tail meaning).outcome memory = (.ok (), after)

/-- What is asked for to create records with `count` tail elements: nothing else, and for all that a
record takes once. -/
structure RequestsSize (l : ProtocolLayout) (r : RecordLayout) (meaning : SizeMeaning)
    (count requested : Nat) : Prop where
  only : ∀ allocator fields tail, tail.length = count →
    ∀ n ∈ (l.createAsking allocator r fields tail meaning).2, n = requested
  once : ∀ allocator fields tail, tail.length = count → r.Accepts fields tail →
    (l.createAsking allocator r fields tail meaning).2 = [requested]

/-- How many bytes are written for the tails of records with `count` tail elements. -/
def WritesTail (l : ProtocolLayout) (r : RecordLayout) (u : MemberLayout) (meaning : SizeMeaning)
    (count length : Nat) : Prop :=
  ∀ fields tail encoded, tail.length = count → r.encode fields tail meaning = .ok encoded →
    ((ProtocolLayout.elementPieces l.order u.offset u.scalar.size encoded.tail).flatMap
      (·.data)).length = length

section Runtime

variable {m : DataModel} {l : ProtocolLayout} {r : RecordLayout} {count size : Nat}

/-- The in-place constructor stores the size that the settings ask for. -/
theorem storesSize (hl : l.envelope = .ofModel m) (hs : r.Sound m)
    (hd : Protocol.fitsInt r.discriminant = true) (hsize : r.recordSize? count = some size)
    (meaning : SizeMeaning) :
    StoresSize l r meaning count size (r.storedSize meaning size count) where
  stores := by
    rintro fields tail memory after rfl h
    obtain ⟨built, hbuilt⟩ := ProtocolLayout.built_of_constructInPlace hl hs h
    obtain rfl : built = size := Option.some.inj (hbuilt.recordSize.symm.trans hsize)
    exact hbuilt.sizeField_eq hl
  builds := by
    rintro fields tail memory rfl haccepts hroom hfits
    obtain ⟨fieldBits, tailBits, hencode⟩ := haccepts.exists_encode meaning hsize
    obtain ⟨tagBits, hbits⟩ :=
      ProtocolLayout.envelopeBits_eq hl hd (r.storedSize meaning size tail.length)
    rw [if_pos (Nat.lt_of_le_of_lt (hs.storedSize_le hsize) hfits)] at hbits
    exact ⟨_, ProtocolLayout.outcome_constructInPlace_eq_ok.mpr
      ⟨_, hencode, ProtocolLayout.outcome_writeRecord_eq_ok.mpr ⟨hroom, tagBits, _, hbits, rfl⟩⟩⟩

/-- Memory is asked for once, for the whole record. -/
theorem requestsSize (l : ProtocolLayout) (hsize : r.recordSize? count = some size)
    (meaning : SizeMeaning) : RequestsSize l r meaning count size where
  only := by
    rintro allocator fields tail rfl n hn
    rcases h : r.encode fields tail meaning with error | encoded
    · rw [ProtocolLayout.createAsking_of_encode_error h] at hn
      cases hn
    · rw [ProtocolLayout.createAsking_of_encode_ok h] at hn
      have hencoded := (RecordLayout.encode_eq_ok.mp h).size
      rw [List.mem_singleton.mp hn]
      exact Option.some.inj (hencoded.symm.trans hsize)
  once := by
    rintro allocator fields tail rfl haccepts
    obtain ⟨_, _, hencode⟩ := haccepts.exists_encode meaning hsize
    rw [ProtocolLayout.createAsking_of_encode_ok hencode]

/-- The tail is written once, as the bytes of all its elements. -/
theorem writesTail (l : ProtocolLayout) (r : RecordLayout) (u : MemberLayout)
    (meaning : SizeMeaning) (count : Nat) :
    WritesTail l r u meaning count (count * u.scalar.size) := by
  rintro fields tail encoded rfl h
  have hlengths : (ProtocolLayout.elementPieces l.order u.offset u.scalar.size encoded.tail).map
      (·.data.length) = List.replicate encoded.tail.length u.scalar.size := by
    refine List.eq_replicate_iff.mpr ⟨by simp [ProtocolLayout.elementPieces], fun n hn => ?_⟩
    obtain ⟨piece, hpiece, rfl⟩ := List.mem_map.mp hn
    obtain ⟨i, bits, -, rfl⟩ := ProtocolLayout.mem_elementPieces.mp hpiece
    exact l.order.length_encode _ bits
  rw [List.length_flatMap, hlengths, List.sum_replicate_nat,
    (RecordLayout.encode_eq_ok.mp h).length_tail]

end Runtime

/-- A text in the functions of a message comes to `value` wherever the variables `names` are
`count`: it is written for an expression that comes to this, with the parentheses that the operators
need, and it is read as this expression if the names in it can be told from what is around them. -/
def Target.Writes (t : Target) (c : Machine) (functions : List Function) (names : List String)
    (count value : Nat) (text : String) : Prop :=
  ∃ x : SizeExpr, text = x.render ∧ x.ComesTo c functions names count value ∧
    (t.IsLegible → SizeExpr.read? text = some x)

/-- An expression that comes to a value and can be read back is written for this value. -/
theorem Target.writes_of_comesTo {t : Target} {c : Machine} {functions : List Function}
    {names : List String} {count value : Nat} {x : SizeExpr}
    (h : x.ComesTo c functions names count value) (hlegible : t.IsLegible → x.IsLegible) :
    t.Writes c functions names count value x.render :=
  ⟨x, rfl, h, fun ht => read?_render h.1 (hlegible ht)⟩

/-- The sizes that are written in the functions of a message come to what its records have at run
time with `count` tail elements and `size` bytes. The size function returns one; in the in-place
constructor one is stored in the size member, and one says how much of the tail to move; in the
allocating one the second line asks the allocator for one. -/
structure SizesAgree (c : Machine) (functions : List Function) (s : Settings) (t : Target)
    (l : ProtocolLayout) (r : RecordLayout) (count size : Nat) : Prop where
  signature : ∀ a, ∃ parameters, (t.function s a).signature =
    (t.function s a).result ++ " " ++ t.accessorName a ++ "(" ++ parameters
  constructText : (t.function s .construct).bodyText s.indent =
    Function.blockText s.indent (t.function s .construct).lines
  createText : (t.function s .create).bodyText s.indent =
    Function.blockText s.indent (t.function s .create).lines
  returned : ∃ text,
    (t.function s .size).bodyText s.indent = " \x7b return " ++ text ++ "; \x7d\n" ∧
    t.Writes c functions ((t.function s .size).parameters.map (·.name)) count size text
  stored : ∃ text stored,
    (t.function s .construct).lines.filter (assignsTo "size") = [assignment "size" text] ∧
    t.Writes c functions t.countNames count stored text ∧
    StoresSize l r s.sizeMeaning count size stored
  requested : ∃ text requested behind, (t.function s .create).lines =
      "*out_msg = NULL;" :: (s.resultType ++ " alloc_result = " ++ s.allocFunction ++
        "(allocator, (void**)out_msg, " ++ text ++ ");") :: behind ∧
    t.Writes c functions t.countNames count requested text ∧
    RequestsSize l r s.sizeMeaning count requested
  moved : ∀ u ∈ r.tail, ∃ tail ∈ t.message.tail, ∃ text,
    (t.function s .construct).lines.filter movesMemory = [moving tail.name text] ∧
    t.Writes c functions t.countNames count (count * u.scalar.size) text ∧
    r.elementSize? = some u.scalar.size ∧
    WritesTail l r u s.sizeMeaning count (count * u.scalar.size)
  unmoved : r.tail = none → (t.function s .construct).lines.filter movesMemory = []

/-- The functions of a record that is described to the machine agree with its layout. -/
theorem sizesAgree (s : Settings) {m : DataModel} {l : ProtocolLayout} {e : TaggedMessage}
    {r : RecordLayout} (hm : Protocol.ValidMembers e.message) (hr : r.DeclaredBy e) (hs : r.Sound m)
    (hl : l.envelope = .ofModel m) (hd : Protocol.fitsInt r.discriminant = true) {c : Machine}
    {functions : List Function} (hc : c.Describes functions s (.ofTagged s e) r) {count size : Nat}
    (hsize : r.recordSize? count = some size) (hfits : size < c.limit) :
    SizesAgree c functions s (.ofTagged s e) l r count size := by
  -- the constructor moves memory in one line at most, that of the tail
  have hmoved : ((Target.ofTagged s e).function s .construct).lines.filter movesMemory =
      (e.message.tail.map fun tail => moving tail.name (Target.tailLength tail).render).toList :=
    filter_movesMemory s _
  have hvalid : Protocol.ValidMembers (Target.ofTagged s e).message := hm
  refine ⟨?signature, Function.bodyText_block rfl _, Function.bodyText_block rfl _, ?returned,
    ?stored, ?requested, ?moved, ?unmoved⟩
  case signature =>
    intro a
    rw [Function.signature_eq, name_function]
    exact ⟨_, rfl⟩
  case returned =>
    exact ⟨_, bodyText_size s _ _,
      Target.writes_of_comesTo (comesTo_sizeBody hc hr hsize hfits) isLegible_sizeBody⟩
  case stored =>
    exact ⟨_, _, filter_assignsTo s hvalid (List.mem_cons_of_mem _ List.mem_cons_self),
      Target.writes_of_comesTo (comesTo_storedSize hc hr hsize hfits hs _)
        fun ht => isLegible_storedSize ht hvalid _,
      storesSize hl hs hd hsize _⟩
  case requested =>
    exact ⟨_, _, _, rfl,
      Target.writes_of_comesTo (comesTo_call hc hr hsize hfits)
        fun ht => isLegible_requestedSize ht hvalid,
      requestsSize l hsize _⟩
  case moved =>
    intro u hu
    rcases tail_cases hr with ⟨-, hnone⟩ | ⟨tail, -, ht, -⟩
    · rw [hnone] at hu
      cases hu
    · refine ⟨tail, ht, _, hmoved.trans (by rw [ht]; rfl),
        Target.writes_of_comesTo (comesTo_tailLength hc hsize hfits ht hu)
          fun hlegible => isLegible_tailLength hlegible hvalid ht, ?_, writesTail l r u _ _⟩
      rw [RecordLayout.elementSize?, Option.mem_def.mp hu]
      rfl
  case unmoved =>
    intro hnone
    rcases tail_cases hr with ⟨ht, -⟩ | ⟨-, w, -, hw⟩
    · exact hmoved.trans (by rw [ht]; rfl)
    · rw [hnone] at hw
      cases hw

/-- Where units are generated, the functions of a message are defined in them, and the name of its
size function is that of no other function. -/
structure Defines (s : Settings) (p : Protocol) (t : Target) (units : List OutputUnit) : Prop where
  definitions : ∀ a, ∃ u ∈ units, ∃ lead,
    StandsIn ((t.function s a).definitionText s.indent lead) u.text
  sizeFunction : (functionsOf s p).find? (·.name == t.accessorName .size) =
    some (t.function s .size)

/-- The generated units have the functions as they are meant here. -/
theorem defines_of_generate {s : Settings} {p : Protocol} {e : TaggedMessage} {sourceName : String}
    {units : List OutputUnit} (h : generate s p sourceName = .ok units) (he : e ∈ p.entries) :
    Defines s p (.ofTagged s e) units where
  definitions := definitionText_standsIn_unit h he
  sizeFunction := by
    obtain ⟨-, hsymbols, -⟩ := (generate_eq_ok s p sourceName units).mp h
    exact find?_sizeFunction (nodup_functionsOf s p hsymbols) he

/-- As long as no size is too large for `size_t`, the generated functions and the records built at
run time agree on all of them. -/
theorem sizesAgree_of_compute {policy : DiscriminantPolicy} {messages : List Message}
    {p : Protocol} {m : DataModel} {order : ByteOrder} {l : ProtocolLayout} {e : TaggedMessage}
    {r : RecordLayout} (hp : Protocol.resolve policy messages = .ok p)
    (h : ProtocolLayout.compute p m order = .ok l) (her : (e, r) ∈ p.entries.zip l.records)
    (s : Settings) {c : Machine} {functions : List Function}
    (hc : c.Describes functions s (.ofTagged s e) r) {count size : Nat}
    (hsize : r.recordSize? count = some size) (hfits : size < c.limit) :
    SizesAgree c functions s (.ofTagged s e) l r count size ∧
      ∀ sourceName units, generate s p sourceName = .ok units →
        Defines s p (.ofTagged s e) units := by
  obtain ⟨he, hmem⟩ := List.of_mem_zip her
  have hrecord := ProtocolLayout.ofTagged_of_mem_zip h her
  refine ⟨?_, fun _ _ hunits => defines_of_generate hunits he⟩
  exact sizesAgree s (Protocol.validMessage_of_mem hp he).members
    (RecordLayout.declaredBy_of_ofTagged hrecord) (RecordLayout.sound_of_ofTagged hrecord)
    (ProtocolLayout.envelope_of_compute h) (ProtocolLayout.fitsInt_discriminant hp h hmem) hc hsize
    hfits

/-- A machine of 32 bits with the types of the sample. -/
def sampleMachine : Machine where
  sizeof type := if type = "uint64_t" then 8 else 16
  limit := twoPow 32

theorem sizesAgree_sample :
    Protocol.resolve .unique [Sample.message] = .ok Sample.protocol ∧
      ProtocolLayout.compute Sample.protocol .ilp32 .big = .ok Sample.layout ∧
      Sample.record.recordSize? 3 = some 40 ∧
      SizesAgree sampleMachine (functionsOf {} Sample.protocol) {}
        (.ofTagged {} ⟨Sample.message, 3⟩) Sample.layout Sample.record 3 40 ∧
      (Target.ofTagged {} ⟨Sample.message, 3⟩).IsLegible := by
  have hresolve : Protocol.resolve .unique [Sample.message] = .ok Sample.protocol := rfl
  have hnames : ((functionsOf {} Sample.protocol).map (·.name)).Nodup := by decide
  have hfind := find?_sizeFunction hnames (List.mem_singleton_self _)
  have hc : sampleMachine.Describes (functionsOf {} Sample.protocol) {}
      (.ofTagged {} ⟨Sample.message, 3⟩) Sample.record :=
    ⟨by decide, by rintro _ ⟨⟩ _ ⟨⟩; decide, hfind⟩
  have hsize : Sample.record.recordSize? 3 = some 40 := rfl
  have hagree := sizesAgree_of_compute hresolve Sample.compute_protocol (List.mem_singleton_self _)
    {} hc hsize (by decide)
  exact ⟨hresolve, Sample.compute_protocol, hsize, hagree.1, by decide, by rintro _ ⟨⟩; decide⟩

end MessageSchema.Generated
