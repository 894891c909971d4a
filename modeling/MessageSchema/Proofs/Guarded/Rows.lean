import MessageSchema.Proofs.Guarded.Basic
import MessageSchema.Proofs.Table.Rows

/-!
# Positions in rows and declarations

A row is told by the cell in its column of names, and the message it appends is handed out from the
end of the table. The declaration of a field is cut where its last word begins, counted in bytes.
`declareRowGuarded` looks the cells and the message up by their positions and cuts at a number of
bytes, and breaks if that cannot be done. On tables that calls have built it does what `declareRow`
does: `declareRowGuarded_eq`.

- **Declarations** (`Field.ofDeclarationGuarded_eq`): the last word begins at a character, so the
  bytes in front of it are those of characters (`cutAt_byteLength`).
- **Rows** (`rowNameGuarded_eq`): a table with columns has one of names, and a row has a cell for
  each column.
-/

namespace MessageSchema

open Guarded

namespace Text

/-- The number of bytes that characters take in UTF-8. -/
def byteLength : List Char → Nat
  | [] => 0
  | c :: cs => c.utf8Size + byteLength cs

/-- The characters, each with the number of bytes in front of it. -/
def withOffsets (offset : Nat) : List Char → List (Nat × Char)
  | [] => []
  | c :: cs => (offset, c) :: withOffsets (offset + c.utf8Size) cs

/-- What stands in front of a number of bytes, and the rest. -/
def cutAt {ε : Type} (offset : Nat) : List Char → Guarded ε (List Char × List Char)
  | [] => if offset = 0 then .ok ([], []) else fault .indexOutOfRange
  | c :: cs =>
    if offset = 0 then .ok ([], c :: cs)
    else if offset < c.utf8Size then fault .notACharBoundary
    else (cutAt (offset - c.utf8Size) cs).map fun (before, behind) => (c :: before, behind)

/-- A text can be cut where a character begins. -/
theorem cutAt_byteLength {ε : Type} (before behind : List Char) :
    (cutAt (byteLength before) (before ++ behind) : Guarded ε _) = .ok (before, behind) := by
  induction before with
  | nil => cases behind <;> rfl
  | cons c before ih =>
    have hsize := Char.utf8Size_pos c
    rw [List.cons_append, cutAt, byteLength, if_neg (by omega), if_neg (by omega),
      Nat.add_sub_cancel_left, ih]
    rfl

example : cutAt 1 ['é'] = (fault .notACharBoundary : Guarded TableError _) := rfl

theorem withOffsets_append (offset : Nat) (before behind : List Char) :
    withOffsets offset (before ++ behind) =
      withOffsets offset before ++ withOffsets (offset + byteLength before) behind := by
  induction before generalizing offset with
  | nil => rfl
  | cons c before ih =>
    rw [List.cons_append, withOffsets, withOffsets, ih, List.cons_append, Nat.add_assoc]
    rfl

theorem map_withOffsets (offset : Nat) (s : List Char) : (withOffsets offset s).map (·.2) = s := by
  induction s generalizing offset with
  | nil => rfl
  | cons c s ih => rw [withOffsets, List.map_cons, ih]

/-- The offset of the first of the last characters of a kind, if the last character is of it. -/
def lastRunOffset? (keep : Char → Bool) (s : List Char) : Option Nat :=
  (((withOffsets 0 s).reverse.takeWhile fun x => keep x.2).getLast?).map (·.1)

/-- The last characters of a kind are told with the number of bytes in front of them. -/
theorem lastRunOffset?_eq (keep : Char → Bool) (s : List Char) :
    lastRunOffset? keep s =
      if (s.reverse.takeWhile keep).reverse = [] then none
      else some (byteLength (s.reverse.dropWhile keep).reverse) := by
  have hsplit := eq_append_lastRun keep s
  have hbefore := eq_nil_or_concat_beforeLastRun keep s
  have hrun : ∀ c ∈ (s.reverse.takeWhile keep).reverse, keep c = true := fun c hc =>
    List.all_eq_true.mp List.all_takeWhile c (List.mem_reverse.mp hc)
  generalize (s.reverse.takeWhile keep).reverse = run at *
  generalize (s.reverse.dropWhile keep).reverse = before at *
  subst hsplit
  have hpos : ∀ x ∈ (withOffsets (0 + byteLength before) run).reverse, keep x.2 = true := by
    intro x hx
    refine hrun x.2 ?_
    rw [← map_withOffsets (0 + byteLength before) run]
    exact List.mem_map_of_mem (List.mem_reverse.mp hx)
  -- the characters in front of the run end with one of another kind
  have hstop : (withOffsets 0 before).reverse.takeWhile (fun x => keep x.2) = [] := by
    rcases hbefore with rfl | ⟨front, c, rfl, hc⟩
    · rfl
    · rw [withOffsets_append, List.reverse_append]
      simp [withOffsets, hc]
  rw [lastRunOffset?, withOffsets_append, List.reverse_append, List.takeWhile_append_of_pos hpos,
    hstop, List.append_nil, List.getLast?_reverse, Nat.zero_add]
  cases run <;> rfl

end Text

namespace Field

open Text

/-- `ofDeclaration` with the declaration cut at a number of bytes. -/
def ofDeclarationGuarded (text : String) : Guarded DeclarationFault Field :=
  let declaration := trim text.toList
  match lastRunOffset? isWordChar declaration with
  | none => report .noName
  | some start => do
    let (before, name) ← cutAt start declaration
    let type := trimEnd before
    if type.isEmpty then report .noType
    else if !isIdentifierChars name then report .nameNotIdentifier
    else return ⟨String.ofList type, String.ofList name, String.ofList declaration⟩

/-- A declaration is cut between characters. -/
theorem ofDeclarationGuarded_eq (text : String) :
    ofDeclarationGuarded text = guarded (ofDeclaration text) := by
  have hsplit := eq_append_lastRun isWordChar (trim text.toList)
  have hcut : (cutAt (byteLength ((trim text.toList).reverse.dropWhile isWordChar).reverse)
      (trim text.toList) : Guarded DeclarationFault _) =
        .ok (((trim text.toList).reverse.dropWhile isWordChar).reverse,
          ((trim text.toList).reverse.takeWhile isWordChar).reverse) := by
    conv_lhs => arg 2; rw [hsplit]
    exact cutAt_byteLength _ _
  simp only [ofDeclarationGuarded, ofDeclaration, lastRunOffset?_eq, List.isEmpty_iff]
  by_cases hname : ((trim text.toList).reverse.takeWhile isWordChar).reverse = []
  · simp only [hname, if_true]
    rfl
  · simp only [hname, if_false, hcut, bind, Except.bind]
    split
    · rfl
    · split <;> rfl

end Field

namespace Table

/-- `fieldOfCell` with the declaration cut at a number of bytes. -/
def fieldOfCellGuarded (location : RowLocation) : Cell → Guarded TableError Field
  | .text declaration =>
    (Field.ofDeclarationGuarded declaration).within (.invalidField location declaration)
  | other => guarded (fieldOfCell location other)

/-- `fieldsOfCell` with the declarations cut at numbers of bytes. -/
def fieldsOfCellGuarded (location : RowLocation) : Cell → Guarded TableError (List Field)
  | .list items => items.mapM (fieldOfCellGuarded location)
  | other => guarded (fieldsOfCell location other)

/-- `setCell` with the declarations cut at numbers of bytes. -/
def setCellGuarded (location : RowLocation) (m : Message) (column : Column) (cell : Cell) :
    Guarded TableError Message :=
  match column with
  | .fields => (fieldsOfCellGuarded location cell).map ({ m with fields := · })
  | other => guarded (setCell location m other cell)

/-- The cell in the column of names, if it is a text. -/
def rowNameGuarded (columns : List Column) (cells : List Cell) :
    Guarded TableError (Option String) := do
  let position ← found .noNameColumn (columns.idxOf? .name)
  let cell ← found .indexOutOfRange cells[position]?
  return cell.text?

/-- `rowMessage` with the cell of the name looked up by its position. -/
def rowMessageGuarded (t : Table) (cells : List Cell) : Guarded TableError Message :=
  match t.columns with
  | none => report .columnsNotDeclared
  | some columns =>
    let row := t.messages.length + 1
    if cells.length ≠ columns.length then
      report (.arityMismatch row columns.length cells.length)
    else do
      let name ← rowNameGuarded columns cells
      (columns.zip cells).foldlM
        (fun m (column, cell) => setCellGuarded ⟨row, name⟩ m column cell)
        { name := "", shortName := "" }

/-- The last message, by its position. -/
def lastMessageGuarded (messages : List Message) : Guarded TableError Message :=
  if messages.length < 1 then fault .indexOutOfRange
  else found .indexOutOfRange messages[messages.length - 1]?

/-- `declareRow` with the message of the row looked up by its position. -/
def declareRowGuarded (t : Table) (cells : List Cell) : Guarded TableError Table := do
  let m ← rowMessageGuarded t cells
  let messages := t.messages ++ [m]
  let _ ← lastMessageGuarded messages
  return { t with messages }

variable {t : Table} {columns : List Column} {cells : List Cell}

/-- The columns of a table that calls have built have a name among them. -/
theorem Reachable.name_mem (ht : t.Reachable) (hcolumns : t.columns = some columns) :
    .name ∈ columns := by
  induction ht with
  | empty => cases hcolumns
  | declareColumns _ h ih =>
    obtain ⟨-, hvalid, rfl⟩ := declareColumns_eq_ok.mp h
    cases hcolumns
    exact hvalid.name_mem
  | declareRow _ h ih =>
    obtain ⟨m, -, rfl⟩ := declareRow_eq_ok h
    exact ih hcolumns

/-- Reading a field from a cell does not break. -/
theorem fieldOfCellGuarded_eq (location : RowLocation) (cell : Cell) :
    fieldOfCellGuarded location cell = guarded (fieldOfCell location cell) := by
  cases cell with
  | text declaration =>
    rw [fieldOfCellGuarded, fieldOfCell, Field.ofDeclarationGuarded_eq, within_guarded]
    rcases Field.ofDeclaration declaration with fault | field <;> rfl
  | absent | bool | integer | list | tuple => rfl

theorem fieldsOfCellGuarded_eq (location : RowLocation) (cell : Cell) :
    fieldsOfCellGuarded location cell = guarded (fieldsOfCell location cell) := by
  cases cell with
  | list items =>
    exact mapM_eq_guarded (List.forall₂_same.mpr fun item _ => fieldOfCellGuarded_eq location item)
  | absent | bool | integer | text | tuple => rfl

theorem setCellGuarded_eq (location : RowLocation) (m : Message) (column : Column) (cell : Cell) :
    setCellGuarded location m column cell = guarded (setCell location m column cell) := by
  cases column with
  | fields => rw [setCellGuarded, setCell, fieldsOfCellGuarded_eq, guarded_map]
  | name | value | description | shortName | tail | extra => rfl

/-- The name of a row stands where the column of names does. -/
theorem rowNameGuarded_eq (hname : .name ∈ columns) (hlength : cells.length = columns.length) :
    rowNameGuarded columns cells = .ok (rowName columns cells) := by
  induction columns generalizing cells with
  | nil => cases hname
  | cons column columns ih =>
    rcases cells with _ | ⟨cell, cells⟩
    · cases hlength
    -- the name stands under the first column of names, or under a later one
    by_cases hcolumn : column = .name
    · subst hcolumn
      rfl
    · have hrest := ih ((List.mem_cons.mp hname).resolve_left (Ne.symm hcolumn))
        (Nat.succ.inj hlength)
      have hbeq : (column == .name) = false := beq_eq_false_iff_ne.mpr hcolumn
      rw [rowNameGuarded, List.idxOf?_cons, hbeq]
      rw [rowName, List.zip_cons_cons, List.find?_cons_of_neg (by simpa using hcolumn)]
      rcases hposition : columns.idxOf? .name with _ | position
      · rw [rowNameGuarded, hposition] at hrest
        cases hrest
      · rw [rowNameGuarded, hposition] at hrest
        rw [hposition]
        exact hrest

/-- Reading a row of a table that was built by calls does not break. -/
theorem rowMessageGuarded_eq (ht : t.Reachable) (cells : List Cell) :
    rowMessageGuarded t cells = guarded (t.rowMessage cells) := by
  rcases hcolumns : t.columns with _ | columns
  · simp only [rowMessageGuarded, rowMessage, hcolumns]
    rfl
  by_cases hlength : cells.length = columns.length
  · have hname := rowNameGuarded_eq (ht.name_mem hcolumns) hlength
    simp only [rowMessageGuarded, rowMessage, hcolumns, hlength, ne_eq, not_true_eq_false,
      if_false, hname, messageOfRow]
    refine foldlM_eq_guarded (P := fun _ => True) (R := Eq) ?_ (fun _ _ _ _ _ => trivial)
      (List.forall₂_refl _) trivial
    rintro m ⟨column, cell⟩ _ - rfl
    exact setCellGuarded_eq _ m column cell
  · simp only [rowMessageGuarded, rowMessage, hcolumns, hlength, ne_eq, not_false_eq_true, if_true]
    rfl

theorem lastMessageGuarded_append (messages : List Message) (m : Message) :
    lastMessageGuarded (messages ++ [m]) = .ok m := by
  simp [lastMessageGuarded, found]

/-- A row of a table that calls have built has a cell for its name, and its message is the last. -/
theorem declareRowGuarded_eq (ht : t.Reachable) (cells : List Cell) :
    declareRowGuarded t cells = guarded (t.declareRow cells) := by
  rw [declareRowGuarded, declareRow, rowMessageGuarded_eq ht, guarded_map]
  rcases guarded (t.rowMessage cells) with problem | m
  · rfl
  · simp only [bind, Except.bind, lastMessageGuarded_append]
    rfl

end Table

end MessageSchema
