import MessageSchema.Message.Lookup
import MessageSchema.Proofs.Column
import MessageSchema.Proofs.Field.Declaration
import MessageSchema.Proofs.Table.Cells

/-!
# Looking up what a row declared

A lookup gives back the cell of its column: as it is, or with fields spelled as declarations and the
tail as a tuple (`Column.answer`). What a message has under a column is what the cell of the row
spells (`Table.declares_iff`), and from that alone the lookup follows (`column_of_spells`), so the
entering of cells and the looking up agree column by column. Main statement:
`Table.returnsRow_declareRow`.
-/

namespace MessageSchema

/-! ## Answers -/

/-- The item of the column of fields that an item is given back as: the declaration without the
blank space around it. -/
def itemAnswer : Cell → Cell
  | .text declaration => .text (String.ofList (Text.trim declaration.toList))
  | .tuple [.text type, .text name] => .text (type ++ " " ++ name)
  | item => item

/-- What a lookup gives of the cell that a row has under a column. -/
def Column.answer (message : String) : Column → Cell → Except LookupError Cell
  | .description, .absent => .error (.notYetComputed message "desc")
  | .fields, .absent => .ok (.list [])
  | .fields, .list items => .ok (.list (items.map itemAnswer))
  | .tail, .list items => .ok (.tuple items)
  | _, cell => .ok cell

variable {cell item : Cell} {f : Field} {fields : List Field} {m : Message} {label text : String}

theorem itemAnswer_of_givesField (h : GivesField item f) :
    itemAnswer item = .text f.declaration := by
  cases h with
  | declaration hread =>
    have htrim := (Field.ofDeclaration_eq_ok.mp hread).trimmed.trim_eq
    rw [itemAnswer, htrim, String.ofList_toList]
  | pair => rfl

theorem map_itemAnswer {items : List Cell} (h : List.Forall₂ GivesField items fields) :
    items.map itemAnswer = fields.map (.text ·.declaration) := by
  induction h with
  | nil => rfl
  | cons hitem _ ih => rw [List.map_cons, List.map_cons, itemAnswer_of_givesField hitem, ih]

theorem answer_of_givesFields (message : String) (h : GivesFields cell fields) :
    Column.answer message .fields cell = .ok (.list (fields.map (.text ·.declaration))) := by
  cases h with
  | absent => rfl
  | list hitems => rw [← map_itemAnswer hitems, Column.answer]

/-- The cell that a tail is given back as. -/
def tailCell : Option Tail → Cell
  | some t => .tuple [.text t.elementType, .text t.name]
  | none => .absent

theorem answer_of_givesTail (message : String) {tail : Option Tail} (h : GivesTail cell tail) :
    Column.answer message .tail cell = .ok (tailCell tail) := by
  cases h with
  | absent => rfl
  | pair hitems => cases cell <;> cases hitems <;> rfl

namespace Message

/-- A lookup gives the answer of any cell that spells what the message has under the column. -/
theorem column_of_spells
    (h : (Column.ofName label).Spells cell (m.content (Column.ofName label))) :
    m.column label = (Column.ofName label).answer m.name cell := by
  unfold column
  generalize Column.ofName label = column at h ⊢
  cases column with
  | name | shortName =>
    obtain ⟨rfl, -⟩ := h
    rfl
  | value =>
    obtain rfl : cell = .ofInteger? m.explicitValue := h
    cases m.explicitValue <;> rfl
  | description =>
    obtain rfl : cell = .ofText? m.description := h
    unfold readDescription
    cases m.description <;> rfl
  | fields => exact (answer_of_givesFields m.name h).symm
  | tail =>
    have htail : GivesTail cell m.tail := h
    rw [answer_of_givesTail m.name htail]
    cases m.tail <;> rfl
  | extra other =>
    have hget : m.extras.get? other = some cell := h
    simp only [hget]
    cases cell <;> rfl

/-- Without a cell an extra column is unknown. -/
theorem column_of_get?_eq_none (hextra : Column.ofName label = .extra label)
    (h : m.extras.get? label = none) : m.column label = .error (.unknownColumn m.name label) := by
  simp only [column, hextra, h]

/-- A description that is filled in is what its lookups give. -/
theorem column_setDescription (h : Column.ofName label = .description) :
    (m.setDescription text).column label = .ok (.text text) := by
  simp only [column, h]
  rfl

/-- A new description changes no other column. -/
theorem column_setDescription_of_ne (h : Column.ofName label ≠ .description) :
    (m.setDescription text).column label = m.column label := by
  unfold column
  generalize Column.ofName label = column at h ⊢
  cases column with
  | description => exact absurd rfl h
  | name | value | shortName | fields | tail | extra => rfl

end Message

namespace Table

open Column

variable {s t first next : Table} {names : List String} {cells : List Cell}

/-- The message gives back the cells that a row has under the names, each under every name of its
column. -/
structure ReturnsRow (names : List String) (cells : List Cell) (m : Message) : Prop where
  declared : ∀ name cell, (name, cell) ∈ names.zip cells → ∀ label, Alias name label →
    m.column label = (ofName name).answer m.name cell
  described : ∀ text label, Alias "desc" label →
    (m.setDescription text).column label = .ok (.text text)
  kept : ∀ text label, ¬ Alias "desc" label → (m.setDescription text).column label = m.column label
  unknown : ∀ label, (ofName label).isExtra = true → label ∉ names →
    m.column label = .error (.unknownColumn m.name label)

/-- A message gives back the cells that declared it. -/
theorem returnsRow_of_declares (hnodup : (names.map ofName).Nodup)
    (h : Declares (names.map ofName) cells m) : ReturnsRow names cells m := by
  obtain ⟨hspelled, hblank⟩ := (declares_iff hnodup).mp h
  refine ⟨fun name cell hcell label halias => ?_, fun text label halias => ?_,
    fun text label halias => ?_, fun label hextra hlabel => ?_⟩
  · have hcolumn := ofName_eq_iff.mpr halias
    have hzip : (ofName name, cell) ∈ (names.map ofName).zip cells := by
      rw [List.zip_map_left]
      exact List.mem_map.mpr ⟨_, hcell, rfl⟩
    have hspells := List.forall₂_zip hspelled hzip
    rw [hcolumn] at hspells ⊢
    exact Message.column_of_spells hspells
  · exact Message.column_setDescription (ofName_eq_iff.mpr halias).symm
  · exact Message.column_setDescription_of_ne fun h => halias (ofName_eq_iff.mp h.symm)
  · have hcolumn := ofName_of_isExtra hextra
    refine Message.column_of_get?_eq_none hcolumn (hblank (.extra label) fun hmem => ?_)
    obtain ⟨name, hname, heq⟩ := List.mem_map.mp hmem
    exact hlabel (eq_of_ofName_eq_extra heq ▸ hname)

/-- Lookups in the message of an accepted row give back what the row declared. -/
theorem returnsRow_declareRow (hnames : s.declareColumns names = .ok first)
    (hcolumns : t.columns = first.columns) (hrow : t.declareRow cells = .ok next) :
    ∃ m, next.messages = t.messages ++ [m] ∧ ReturnsRow names cells m := by
  obtain ⟨-, hvalid, rfl⟩ := declareColumns_eq_ok.mp hnames
  obtain ⟨m, hm, rfl⟩ := declareRow_eq_ok hrow
  obtain ⟨columns, hsome, hdeclares⟩ := rowMessage_eq_ok.mp hm
  cases hcolumns.symm.trans hsome
  exact ⟨m, rfl, returnsRow_of_declares hvalid.nodup hdeclares⟩

/-- Column names, two of them aliases and one of an extra column. -/
def sampleNames : List String :=
  ["name", "short_name", "desc", "fixed_fields", "va_data", "note"]

/-- A row with both spellings of fields, a tail that is given as a list, and no description. -/
def sampleCells : List Cell :=
  [.text "PING", .text "ping", .absent,
    .list [.text " char  *path ", .tuple [.text "int", .text "id"]],
    .list [.text "long", .text "items"], .bool true]

theorem returnsRow_sample : ∃ first next m, ({} : Table).declareColumns sampleNames = .ok first ∧
    first.declareRow sampleCells = .ok next ∧ next.messages = [m] ∧
      ReturnsRow sampleNames sampleCells m := by
  obtain ⟨first, hfirst⟩ : ∃ first, ({} : Table).declareColumns sampleNames = .ok first := ⟨_, rfl⟩
  obtain ⟨next, hnext⟩ : ∃ next, first.declareRow sampleCells = .ok next := by
    cases hfirst
    exact ⟨_, rfl⟩
  obtain ⟨m, hmessages, hreturns⟩ := returnsRow_declareRow hfirst rfl hnext
  cases hfirst
  exact ⟨_, next, m, rfl, hnext, hmessages, hreturns⟩

/-- The fields of the row, under the other name of their column. -/
example : (Column.ofName "fixed_fields").answer "PING" sampleCells[3] =
    .ok (.list [.text "char  *path", .text "int id"]) :=
  rfl

end Table

end MessageSchema
