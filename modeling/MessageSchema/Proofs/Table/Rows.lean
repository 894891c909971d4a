import MessageSchema.Proofs.Distinct
import MessageSchema.Proofs.Table

/-!
# What one call on a table accepts

- **Columns** (`declareColumns_eq_ok`): accepted are names of different columns with those that
  every table needs among them.
- **Rows** (`rowMessage_eq_ok`): the number of a row and the name in it decide the errors of the
  row (`Located`) and not its message, which has a name and a short name (`name_ne_empty`,
  `shortName_ne_empty`).
-/

namespace MessageSchema

/-- The number of the row that an error is about. -/
def TableError.row? : TableError → Option Nat
  | .arityMismatch row _ _ => some row
  | .invalidCell location _ _ _ => some location.number
  | .invalidField location _ _ => some location.number
  | _ => none

namespace Table

/-! ## Columns -/

/-- Columns that a table can have. -/
structure ValidColumns (columns : List Column) : Prop where
  nodup : columns.Nodup
  name_mem : .name ∈ columns
  shortName_mem : .shortName ∈ columns

variable {t next : Table} {names : List String} {earlier columns : List Column}

theorem columnsOfNames_eq_ok (hearlier : earlier.Nodup) :
    columnsOfNames earlier names = .ok columns ↔
      (earlier ++ names.map Column.ofName).Nodup ∧
        columns = earlier ++ names.map Column.ofName := by
  induction names generalizing earlier with
  | nil => simp [columnsOfNames, hearlier, eq_comm]
  | cons name names ih =>
    unfold columnsOfNames
    by_cases hmem : Column.ofName name ∈ earlier
    · simp only [hmem, if_true, reduceCtorEq, false_iff]
      rintro ⟨hnodup, -⟩
      exact not_mem_of_nodup_append_cons hnodup hmem
    · have hnext : (earlier ++ [Column.ofName name]).Nodup := nodup_snoc.mpr ⟨hmem, hearlier⟩
      simp only [hmem, if_false, ih hnext, List.append_assoc, List.map_cons, List.singleton_append]

theorem find?_requiredColumns :
    requiredColumns.find? (· ∉ columns) = none ↔ .name ∈ columns ∧ .shortName ∈ columns := by
  simp [requiredColumns, List.find?_eq_none]

/-- Columns can be declared once, and only if they are valid. -/
theorem declareColumns_eq_ok : t.declareColumns names = .ok next ↔
    t.columns = none ∧ ValidColumns (names.map Column.ofName) ∧
      next = { t with columns := some (names.map Column.ofName) } := by
  unfold declareColumns
  rcases t.columns with _ | earlier
  · rcases hnames : columnsOfNames [] names with e | columns
    · refine iff_of_false (by simp) ?_
      rintro ⟨-, hvalid, -⟩
      have hok := (columnsOfNames_eq_ok List.nodup_nil).mpr ⟨hvalid.nodup, rfl⟩
      rw [List.nil_append, hnames] at hok
      cases hok
    · obtain ⟨hnodup, rfl⟩ := (columnsOfNames_eq_ok List.nodup_nil).mp hnames
      rw [List.nil_append] at hnodup ⊢
      simp only [Option.isSome_none, Bool.false_eq_true, if_false]
      split
      · rename_i missing hmissing
        refine iff_of_false (by simp) ?_
        rintro ⟨-, hvalid, -⟩
        have hnone := find?_requiredColumns.mpr ⟨hvalid.name_mem, hvalid.shortName_mem⟩
        rw [hnone] at hmissing
        cases hmissing
      · rename_i hmissing
        obtain ⟨hname, hshortName⟩ := find?_requiredColumns.mp hmissing
        have hvalid : ValidColumns (names.map Column.ofName) := ⟨hnodup, hname, hshortName⟩
        simp [hvalid, eq_comm]
  · simp

/-! ## Where a row stands -/

/-- A reading of cells at a location, which stands in the errors and in no result. -/
structure Located {α : Type} (read : RowLocation → Except TableError α) : Prop where
  moved : ∀ {l : RowLocation} {a : α}, read l = .ok a → ∀ l', read l' = .ok a
  row : ∀ {l : RowLocation} {e : TableError}, read l = .error e → e.row? = some l.number

variable {α β : Type}

theorem located_ok (a : α) : Located fun _ => .ok a where
  moved hok _ := hok
  row herror := nomatch herror

theorem located_invalidCell (column : Column) (form : CellForm) (kind : CellKind) :
    Located fun l => (.error (.invalidCell l column form kind) : Except TableError α) where
  moved hok := nomatch hok
  row herror := by
    cases herror
    rfl

theorem Located.map {read : RowLocation → Except TableError α} (h : Located read) (f : α → β) :
    Located fun l => (read l).map f where
  moved hok l' := by
    obtain ⟨a, ha, rfl⟩ := map_eq_ok.mp hok
    exact map_eq_ok.mpr ⟨a, h.moved ha l', rfl⟩
  row {l e} herror := by
    rcases hread : read l with error | a
    · rw [hread] at herror
      cases herror
      exact h.row hread
    · rw [hread] at herror
      cases herror

theorem Located.mapM {read : RowLocation → β → Except TableError α} (h : ∀ b, Located (read · b))
    (bs : List β) : Located fun l => bs.mapM (read l) where
  moved hok l' := mapM_eq_ok.mpr ((mapM_eq_ok.mp hok).imp fun b _ hb => (h b).moved hb l')
  row {l e} herror := by
    obtain ⟨b, -, hb⟩ := exists_of_mapM_eq_error herror
    exact (h b).row hb

theorem Located.foldlM {read : RowLocation → α → β → Except TableError α}
    (h : ∀ a b, Located (read · a b)) (bs : List β) (a : α) :
    Located fun l => bs.foldlM (read l) a := by
  induction bs generalizing a with
  | nil => exact located_ok a
  | cons b bs ih =>
    constructor
    · intro l c hok l'
      obtain ⟨d, hd, hc⟩ := bind_eq_ok.mp hok
      exact bind_eq_ok.mpr ⟨d, (h a b).moved hd l', (ih d).moved hc l'⟩
    · intro l e herror
      obtain hb | ⟨d, -, hbs⟩ := bind_eq_error.mp herror
      · exact (h a b).row hb
      · exact (ih d).row hbs

/-! ## Cells -/

variable {location : RowLocation} {cells : List Cell} {m n : Message}

theorem located_nonEmptyOfCell (column : Column) (cell : Cell) :
    Located (nonEmptyOfCell · column cell) where
  moved hok _ := nonEmptyOfCell_eq_ok.mpr (nonEmptyOfCell_eq_ok.mp hok)
  row {l e} herror := by
    unfold nonEmptyOfCell at herror
    split at herror
    · split at herror <;> cases herror
      rfl
    · cases herror
      rfl

theorem located_fieldOfCell (cell : Cell) : Located (fieldOfCell · cell) where
  moved hok _ := fieldOfCell_eq_ok.mpr (fieldOfCell_eq_ok.mp hok)
  row {l e} herror := by
    unfold fieldOfCell at herror
    split at herror
    · split at herror
      · cases herror
      · cases herror
        rfl
    · cases herror
    · cases herror
      rfl

theorem located_fieldsOfCell (cell : Cell) : Located (fieldsOfCell · cell) := by
  unfold fieldsOfCell
  cases cell with
  | absent => exact located_ok []
  | list items => exact .mapM located_fieldOfCell items
  | bool | integer | text | tuple => exact located_invalidCell .fields .fieldsOrAbsent _

theorem located_tailOfCell (cell : Cell) : Located (tailOfCell · cell) where
  moved hok _ := tailOfCell_eq_ok.mpr (tailOfCell_eq_ok.mp hok)
  row {l e} herror := by
    unfold tailOfCell at herror
    split at herror <;> cases herror
    rfl

theorem located_setCell (m : Message) (column : Column) (cell : Cell) :
    Located (setCell · m column cell) := by
  unfold setCell
  cases column with
  | name => exact (located_nonEmptyOfCell .name cell).map _
  | shortName => exact (located_nonEmptyOfCell .shortName cell).map _
  | value =>
    cases cell with
    | absent => exact located_ok m
    | integer => exact located_ok _
    | bool | text | list | tuple => exact located_invalidCell .value .integerOrAbsent _
  | description =>
    cases cell with
    | absent => exact located_ok m
    | text => exact located_ok _
    | bool | integer | list | tuple => exact located_invalidCell .description .textOrAbsent _
  | fields => exact (located_fieldsOfCell cell).map _
  | tail => exact (located_tailOfCell cell).map _
  | extra label => exact located_ok _

/-- Where a row stands makes no difference to its message. -/
theorem located_messageOfRow (columns : List Column) (cells : List Cell) :
    Located (messageOfRow · columns cells) := by
  have hcell (m : Message) (entry : Column × Cell) : Located (setCell · m entry.1 entry.2) :=
    located_setCell m entry.1 entry.2
  exact .foldlM hcell _ _

/-! ## The names of a message -/

theorem name_setCell {column : Column} {cell : Cell}
    (h : setCell location m column cell = .ok n) :
    n.name ≠ "" ∨ column ≠ .name ∧ n.name = m.name := by
  cases column with
  | name =>
    obtain ⟨s, hs, rfl⟩ := map_eq_ok.mp h
    exact .inl ((nonEmptyOfCell_eq_ok.mp hs).2)
  | shortName | fields | tail =>
    obtain ⟨_, -, rfl⟩ := map_eq_ok.mp h
    exact .inr ⟨by simp, rfl⟩
  | value | description =>
    cases cell <;> cases h <;> exact .inr ⟨by simp, rfl⟩
  | extra =>
    cases h
    exact .inr ⟨by simp, rfl⟩

theorem shortName_setCell {column : Column} {cell : Cell}
    (h : setCell location m column cell = .ok n) :
    n.shortName ≠ "" ∨ column ≠ .shortName ∧ n.shortName = m.shortName := by
  cases column with
  | shortName =>
    obtain ⟨s, hs, rfl⟩ := map_eq_ok.mp h
    exact .inl ((nonEmptyOfCell_eq_ok.mp hs).2)
  | name | fields | tail =>
    obtain ⟨_, -, rfl⟩ := map_eq_ok.mp h
    exact .inr ⟨by simp, rfl⟩
  | value | description =>
    cases cell <;> cases h <;> exact .inr ⟨by simp, rfl⟩
  | extra =>
    cases h
    exact .inr ⟨by simp, rfl⟩

/-- Cells, one for each of the columns, that declare the message wherever their row stands. -/
structure Declares (columns : List Column) (cells : List Cell) (m : Message) : Prop where
  length_eq : cells.length = columns.length
  message_eq : ∀ location, messageOfRow location columns cells = .ok m

namespace Declares

variable {column : Column}

theorem exists_cell (h : Declares columns cells m) (hcolumn : column ∈ columns) :
    ∃ cell, (column, cell) ∈ columns.zip cells := by
  obtain ⟨i, hi, rfl⟩ := List.getElem_of_mem hcolumn
  have hcell : i < cells.length := h.length_eq ▸ hi
  have hzip : i < (columns.zip cells).length := by
    rw [List.length_zip]
    omega
  refine ⟨cells[i], ?_⟩
  rw [← List.getElem_zip (h := hzip)]
  exact List.getElem_mem hzip

/-- What the cell of one column brings about, and no other cell undoes, holds of the message. -/
theorem establishes {P : Message → Prop} (h : Declares columns cells m) (hcolumn : column ∈ columns)
    (hset : ∀ {location m n column' cell}, setCell location m column' cell = .ok n →
      P n ∨ column' ≠ column ∧ (P m → P n)) : P m := by
  obtain ⟨cell, hcell⟩ := h.exists_cell hcolumn
  refine foldlM_establishes hcell ?_ ?_ (h.message_eq ⟨0, none⟩)
  · intro m n hn
    exact (hset hn).resolve_right fun hother => hother.1 rfl
  · intro m entry n hm hn
    exact (hset hn).elim id fun hother => hother.2 hm

/-- Every message of a row has a name. -/
theorem name_ne_empty (h : Declares columns cells m) (hcolumns : ValidColumns columns) :
    m.name ≠ "" := by
  refine h.establishes (P := fun m => m.name ≠ "") hcolumns.name_mem fun hset => ?_
  obtain hname | ⟨hcolumn, hsame⟩ := name_setCell hset
  · exact .inl hname
  · exact .inr ⟨hcolumn, fun hname => hsame ▸ hname⟩

theorem shortName_ne_empty (h : Declares columns cells m) (hcolumns : ValidColumns columns) :
    m.shortName ≠ "" := by
  refine h.establishes (P := fun m => m.shortName ≠ "") hcolumns.shortName_mem fun hset => ?_
  obtain hname | ⟨hcolumn, hsame⟩ := shortName_setCell hset
  · exact .inl hname
  · exact .inr ⟨hcolumn, fun hname => hsame ▸ hname⟩

end Declares

/-! ## Rows -/

/-- A row makes the message that its cells declare. -/
theorem rowMessage_eq_ok : t.rowMessage cells = .ok m ↔
    ∃ columns, t.columns = some columns ∧ Declares columns cells m := by
  unfold rowMessage
  rcases t.columns with _ | columns
  · simp
  · dsimp only
    split
    · rename_i hlength
      refine iff_of_false (by simp) ?_
      rintro ⟨_, hcolumns, h⟩
      cases hcolumns
      exact hlength h.length_eq
    · rename_i hlength
      constructor
      · intro h
        exact ⟨columns, rfl, not_not.mp hlength, (located_messageOfRow columns cells).moved h⟩
      · rintro ⟨_, hcolumns, h⟩
        cases hcolumns
        exact h.message_eq _

/-- The error of a row is that there are no columns, or it has the number of the row. -/
theorem rowMessage_eq_error {e : TableError} (h : t.rowMessage cells = .error e) :
    t.columns = none ∧ e = .columnsNotDeclared ∨
      t.columns.isSome ∧ e.row? = some (t.messages.length + 1) := by
  unfold rowMessage at h
  rcases hcolumns : t.columns with _ | columns
  · rw [hcolumns] at h
    cases h
    exact .inl ⟨rfl, rfl⟩
  · rw [hcolumns] at h
    refine .inr ⟨rfl, ?_⟩
    dsimp only at h
    split at h
    · cases h
      rfl
    · exact (located_messageOfRow columns cells).row h

end Table

end MessageSchema
