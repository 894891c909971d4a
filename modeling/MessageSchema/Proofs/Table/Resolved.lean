import MessageSchema.Proofs.Protocol.Valid
import MessageSchema.Proofs.Table.Cells

/-!
# Protocols of tables

`Table.Resolves policy names rows p`: the rows make a table under the column names, and its messages
the protocol `p`. What that comes to is said column by column (`resolves_iff`, with `declares_iff`),
and so the fields of the protocol are those that items of the rows give (`field_mem_iff`) and its
tails those that stand in the rows (`tail_iff`): its members are those that the rows spell as
declarations or as pairs (`member_iff`).
-/

namespace MessageSchema.Table

variable {columns : List Column} {column : Column} {cells : List Cell} {cell : Cell} {m : Message}

/-! ## Tables -/

/-- The table of column names and rows. -/
def ofRows (names : List String) (rows : List (List Cell)) : Except TableError Table := do
  let t ← ({} : Table).declareColumns names
  rows.foldlM declareRow t

variable {t next : Table} {names : List String} {rows : List (List Cell)} {messages : List Message}

theorem foldlM_declareRow_eq_ok (hcolumns : t.columns = some columns) :
    rows.foldlM declareRow t = .ok next ↔ ∃ messages,
      List.Forall₂ (Declares columns) rows messages ∧
        next = { t with messages := t.messages ++ messages } := by
  induction rows generalizing t with
  | nil =>
    simp only [List.forall₂_nil_left_iff, exists_eq_left, List.append_nil, List.foldlM_nil]
    exact ⟨fun h => (Except.ok.inj h).symm, fun h => h ▸ rfl⟩
  | cons cells rows ih =>
    rw [List.foldlM_cons, bind_eq_ok]
    have hnext (m : Message) :=
      ih (t := { t with messages := t.messages ++ [m] }) hcolumns
    constructor
    · rintro ⟨after, hafter, h⟩
      obtain ⟨m, hm, rfl⟩ := declareRow_eq_ok hafter
      obtain ⟨_, hsome, hrow⟩ := rowMessage_eq_ok.mp hm
      cases hcolumns.symm.trans hsome
      obtain ⟨messages, hrows, rfl⟩ := (hnext m).mp h
      exact ⟨m :: messages, .cons hrow hrows, by simp⟩
    · rintro ⟨_, hall, rfl⟩
      obtain ⟨m, messages, hrow, hrows, rfl⟩ := List.forall₂_cons_left_iff.mp hall
      have hm := rowMessage_eq_ok.mpr ⟨columns, hcolumns, hrow⟩
      refine ⟨_, map_eq_ok.mpr ⟨m, hm, rfl⟩, (hnext m).mpr ⟨messages, hrows, by simp⟩⟩

/-- A table of rows has its columns and a message for each row. -/
theorem ofRows_eq_ok : ofRows names rows = .ok t ↔ ValidColumns (names.map Column.ofName) ∧
    t.columns = some (names.map Column.ofName) ∧
      List.Forall₂ (Declares (names.map Column.ofName)) rows t.messages := by
  rw [ofRows, bind_eq_ok]
  constructor
  · rintro ⟨first, hfirst, h⟩
    obtain ⟨-, hvalid, rfl⟩ := declareColumns_eq_ok.mp hfirst
    obtain ⟨messages, hrows, rfl⟩ := (foldlM_declareRow_eq_ok rfl).mp h
    exact ⟨hvalid, rfl, hrows⟩
  · rintro ⟨hvalid, hcolumns, hrows⟩
    refine ⟨_, declareColumns_eq_ok.mpr ⟨rfl, hvalid, rfl⟩, ?_⟩
    refine (foldlM_declareRow_eq_ok rfl).mpr ⟨t.messages, hrows, ?_⟩
    cases t
    simp_all

/-- Column names and rows that make a protocol. -/
def Resolves (policy : DiscriminantPolicy) (names : List String) (rows : List (List Cell))
    (p : Protocol) : Prop :=
  ∃ t, ofRows names rows = .ok t ∧ Protocol.resolve policy t.messages = .ok p

variable {policy : DiscriminantPolicy} {p : Protocol}

theorem resolves_iff : Resolves policy names rows p ↔ ValidColumns (names.map Column.ofName) ∧
    List.Forall₂ (Declares (names.map Column.ofName)) rows p.messages ∧
      Protocol.resolve policy p.messages = .ok p := by
  constructor
  · rintro ⟨t, ht, hp⟩
    obtain ⟨hvalid, -, hrows⟩ := ofRows_eq_ok.mp ht
    obtain ⟨-, hmessages, -⟩ := Protocol.resolve_eq_ok.mp hp
    exact ⟨hvalid, hmessages ▸ hrows, hmessages ▸ hp⟩
  · rintro ⟨hvalid, hrows, hp⟩
    exact ⟨⟨some (names.map Column.ofName), p.messages⟩, ofRows_eq_ok.mpr ⟨hvalid, rfl, hrows⟩, hp⟩

/-! ## Fields and tails -/

/-- The cell stands under the column in one of the rows. -/
def CellIn (names : List String) (rows : List (List Cell)) (column : Column) (cell : Cell) : Prop :=
  ∃ cells ∈ rows, (column, cell) ∈ (names.map Column.ofName).zip cells

/-- The item stands among the fields of one of the rows. -/
def ItemIn (names : List String) (rows : List (List Cell)) (item : Cell) : Prop :=
  ∃ items, CellIn names rows .fields (.list items) ∧ item ∈ items

/-- The type and the name stand in one of the rows as its tail. -/
def TailIn (names : List String) (rows : List (List Cell)) (type name : String) : Prop :=
  ∃ cell, CellIn names rows .tail cell ∧ cell.items? = some [.text type, .text name]

/-- The type and the name stand in one of the rows as a field or as a tail. -/
def PairIn (names : List String) (rows : List (List Cell)) (type name : String) : Prop :=
  ItemIn names rows (.tuple [.text type, .text name]) ∨ TailIn names rows type name

/-- Every cell of the rows is spelled in a message. -/
theorem exists_message (h : Resolves policy names rows p) (hcell : CellIn names rows column cell) :
    ∃ m ∈ p.messages, column.Spells cell (m.content column) := by
  obtain ⟨hvalid, hrows, -⟩ := resolves_iff.mp h
  obtain ⟨cells, hcells, hzip⟩ := hcell
  obtain ⟨m, hm, hrow⟩ := exists_right_of_forall₂ hrows hcells
  exact ⟨m, hm, List.forall₂_zip ((declares_iff hvalid.nodup).mp hrow).1 hzip⟩

/-- Whatever a message has under a column stands in a row. -/
theorem exists_cellIn (h : Resolves policy names rows p) (hm : m ∈ p.messages)
    (hne : m.content column ≠ Message.blank.content column) :
    ∃ cell, CellIn names rows column cell ∧ column.Spells cell (m.content column) := by
  obtain ⟨hvalid, hrows, -⟩ := resolves_iff.mp h
  obtain ⟨cells, hcells, hrow⟩ := exists_left_of_forall₂ hrows hm
  obtain ⟨hspelled, hrest⟩ := (declares_iff hvalid.nodup).mp hrow
  have hcolumn : column ∈ names.map Column.ofName := by
    by_contra hother
    exact hne (hrest column hother)
  obtain ⟨cell, hzip⟩ := hrow.exists_cell hcolumn
  exact ⟨cell, ⟨cells, hcells, hzip⟩, List.forall₂_zip hspelled hzip⟩

/-- The fields of a protocol are those that items of its rows give. -/
theorem field_mem_iff (h : Resolves policy names rows p) {f : Field} :
    (∃ m ∈ p.messages, f ∈ m.fields) ↔ ∃ item, ItemIn names rows item ∧ GivesField item f := by
  constructor
  · rintro ⟨m, hm, hf⟩
    have hne : m.content .fields ≠ Message.blank.content .fields := List.ne_nil_of_mem hf
    obtain ⟨cell, hcell, hspells⟩ := exists_cellIn h hm hne
    have hgives : GivesFields cell m.fields := hspells
    obtain ⟨items, item, rfl, hitem, hgives⟩ := hgives.exists_item hf
    exact ⟨item, ⟨items, hcell, hitem⟩, hgives⟩
  · rintro ⟨item, ⟨items, hcell, hitem⟩, hgives⟩
    obtain ⟨m, hm, hspells⟩ := exists_message h hcell
    obtain ⟨g, hg, hgiven⟩ := exists_right_of_forall₂ hspells.items hitem
    exact ⟨m, hm, hgives.unique hgiven ▸ hg⟩

/-- Every item among the fields of the rows gives a field of the protocol. -/
theorem exists_field (h : Resolves policy names rows p) {item : Cell}
    (hitem : ItemIn names rows item) : ∃ f, GivesField item f := by
  obtain ⟨items, hcell, hitem⟩ := hitem
  obtain ⟨m, -, hspells⟩ := exists_message h hcell
  obtain ⟨f, -, hgives⟩ := exists_right_of_forall₂ hspells.items hitem
  exact ⟨f, hgives⟩

/-- The tails of a protocol are those of its rows. -/
theorem tail_iff (h : Resolves policy names rows p) (tail : Tail) :
    (∃ m ∈ p.messages, m.tail = some tail) ↔ TailIn names rows tail.elementType tail.name := by
  constructor
  · rintro ⟨m, hm, htail⟩
    have hne : m.content .tail ≠ Message.blank.content .tail := fun hnone =>
      nomatch htail.symm.trans hnone
    obtain ⟨cell, hcell, hspells⟩ := exists_cellIn h hm hne
    have hgives : GivesTail cell (some tail) := htail ▸ hspells
    exact ⟨cell, hcell, hgives.items⟩
  · rintro ⟨cell, hcell, hitems⟩
    obtain ⟨m, hm, hspells⟩ := exists_message h hcell
    have hgives : Column.tail.Spells cell (some tail) := GivesTail.pair hitems
    exact ⟨m, hm, hspells.unique hgives⟩

/-! ## Members -/

/-- The message has a field or a tail of the type and the name. -/
def HasMember (m : Message) (type name : String) : Prop :=
  (∃ f ∈ m.fields, f.type = type ∧ f.name = name) ∨
    ∃ tail ∈ m.tail, tail.elementType = type ∧ tail.name = name

/-- The type and the name are read of a declaration in the rows, or stand in them as a pair. -/
inductive MemberIn (names : List String) (rows : List (List Cell)) : String → String → Prop
  | declaration {text : String} {f : Field} : ItemIn names rows (.text text) →
    Field.ofDeclaration text = .ok f → MemberIn names rows f.type f.name
  | pair {type name : String} : PairIn names rows type name → MemberIn names rows type name

variable {type name : String}

/-- The members of a protocol are those of its rows. -/
theorem member_iff (h : Resolves policy names rows p) :
    (∃ m ∈ p.messages, HasMember m type name) ↔ MemberIn names rows type name := by
  have hfield {item : Cell} {f : Field} (hitem : ItemIn names rows item)
      (hgives : GivesField item f) : ∃ m ∈ p.messages, HasMember m f.type f.name := by
    obtain ⟨m, hm, hf⟩ := (field_mem_iff h).mpr ⟨item, hitem, hgives⟩
    exact ⟨m, hm, .inl ⟨f, hf, rfl, rfl⟩⟩
  constructor
  · rintro ⟨m, hm, ⟨f, hf, rfl, rfl⟩ | ⟨tail, htail, rfl, rfl⟩⟩
    · obtain ⟨item, hitem, hgives⟩ := (field_mem_iff h).mp ⟨m, hm, hf⟩
      cases hgives with
      | declaration hread => exact .declaration hitem hread
      | pair => exact .pair (.inl hitem)
    · exact .pair (.inr ((tail_iff h _).mp ⟨m, hm, htail⟩))
  · rintro (⟨hitem, hread⟩ | hitem | htail)
    · exact hfield hitem (.declaration hread)
    · exact hfield hitem .pair
    · obtain ⟨m, hm, htail⟩ := (tail_iff h ⟨type, name⟩).mpr htail
      exact ⟨m, hm, .inr ⟨_, htail, rfl, rfl⟩⟩

theorem mem_memberTypes : type ∈ m.memberTypes ↔ ∃ name, HasMember m type name := by
  simp [Message.memberTypes, HasMember, exists_or]

theorem mem_memberNames : name ∈ m.memberNames ↔ ∃ type, HasMember m type name := by
  simp [Message.memberNames, HasMember, exists_or]

end MessageSchema.Table
