import MessageSchema.Proofs.Field.Declaration
import MessageSchema.Table

/-!
# Tables that calls can build

`Table.Reachable t`: a sequence of calls leads from the empty table to `t`; calls that fail leave
the table as it is. The messages of such a table are those of rows (`Reachable.forall_messages`).

`Field.Split f gap`: the declaration of a field is its type, blank space and its name, and the name
is the whole of the last word. So it is for the fields that are read off a declaration
(`exists_split_ofDeclaration`) and for those made from a type and a name (`split_ofPair`), and
therefore for the fields of such a table (`Reachable.exists_split`).

`GivesField`, `GivesFields` and `GivesTail` are the cells that fields and tails are read from
(`fieldOfCell_eq_ok`, `fieldsOfCell_eq_ok`, `tailOfCell_eq_ok`).
-/

namespace MessageSchema

open Text

namespace Field

/-- The declaration consists of type, gap and name; no word goes on from the gap into the name. -/
structure Split (f : Field) (gap : List Char) : Prop where
  declaration : f.declaration.toList = f.type.toList ++ gap ++ f.name.toList
  blank : ∀ c ∈ gap, isBlank c = true
  apart : ∃ before c, f.type.toList ++ gap = before ++ [c] ∧ isWordChar c = false

theorem split_ofPair (type name : String) : (ofPair type name).Split [' '] where
  declaration := by simp [ofPair]
  blank := List.all_eq_true.mp rfl
  apart := ⟨type.toList, ' ', rfl, by decide⟩

theorem exists_split_ofDeclaration {text : String} {f : Field} (h : ofDeclaration text = .ok f) :
    ∃ gap, f.Split gap := by
  have hparts := ofDeclaration_eq_ok.mp h
  obtain ⟨gap, hblank, hsplit⟩ := hparts.split
  obtain ⟨before, hbefore, hends⟩ := hparts.lastWord.exists_before
  obtain rfl : f.type.toList ++ gap = before := List.append_cancel_right (hsplit.symm.trans hbefore)
  refine ⟨gap, hsplit, hblank, ?_⟩
  -- there is a type, so a character stands in front of the name
  rcases List.eq_nil_or_concat' (f.type.toList ++ gap) with hnil | ⟨start, c, hlast⟩
  · exact absurd (by simpa using (List.append_eq_nil_iff.mp hnil).1) hparts.type_ne_empty
  · exact ⟨start, c, hlast, hends c (by simp [hlast])⟩

end Field

/-- The cells that give a field. -/
inductive GivesField : Cell → Field → Prop
  | declaration {text : String} {f : Field} :
    Field.ofDeclaration text = .ok f → GivesField (.text text) f
  | pair {type name : String} :
    GivesField (.tuple [.text type, .text name]) (.ofPair type name)

theorem GivesField.exists_split {cell : Cell} {f : Field} (h : GivesField cell f) :
    ∃ gap, f.Split gap := by
  obtain hread | _ := h
  · exact Field.exists_split_ofDeclaration hread
  · exact ⟨_, Field.split_ofPair _ _⟩

/-- The cells that give fields. -/
inductive GivesFields : Cell → List Field → Prop
  | absent : GivesFields .absent []
  | list {items : List Cell} {fields : List Field} :
    List.Forall₂ GivesField items fields → GivesFields (.list items) fields

/-- The cells that give a tail or none. -/
inductive GivesTail : Cell → Option Tail → Prop
  | absent : GivesTail .absent none
  | pair {cell : Cell} {type name : String} :
    cell.items? = some [.text type, .text name] → GivesTail cell (some ⟨type, name⟩)

namespace Table

/-- The tables that can be built by declaring columns and rows. -/
inductive Reachable : Table → Prop
  | empty : Reachable {}
  | declareColumns {t next : Table} {names : List String} :
    Reachable t → t.declareColumns names = .ok next → Reachable next
  | declareRow {t next : Table} {cells : List Cell} :
    Reachable t → t.declareRow cells = .ok next → Reachable next

variable {t next : Table} {location : RowLocation} {column : Column} {columns : List Column}
  {cell : Cell} {cells : List Cell} {m n : Message}

/-! ## One call -/

theorem messages_declareColumns {names : List String} (h : t.declareColumns names = .ok next) :
    next.messages = t.messages := by
  unfold declareColumns at h
  split at h
  · cases h
  split at h
  · cases h
  split at h
  · cases h
  · cases h
    rfl

theorem declareRow_eq_ok (h : t.declareRow cells = .ok next) :
    ∃ m, t.rowMessage cells = .ok m ∧ next = { t with messages := t.messages ++ [m] } := by
  obtain ⟨m, hm, rfl⟩ := map_eq_ok.mp h
  exact ⟨m, hm, rfl⟩

theorem messageOfRow_of_rowMessage (h : t.rowMessage cells = .ok m) :
    ∃ location columns, messageOfRow location columns cells = .ok m := by
  unfold rowMessage at h
  split at h
  · cases h
  · dsimp only at h
    split at h
    · cases h
    · exact ⟨_, _, h⟩

/-- What holds of the messages of all rows holds of the messages of a table. -/
theorem Reachable.forall_messages {P : Message → Prop} (ht : t.Reachable)
    (row : ∀ location columns cells m, messageOfRow location columns cells = .ok m → P m) :
    ∀ m ∈ t.messages, P m := by
  induction ht with
  | empty => simp
  | declareColumns _ h ih =>
    rw [messages_declareColumns h]
    exact ih
  | declareRow _ h ih =>
    obtain ⟨m, hm, rfl⟩ := declareRow_eq_ok h
    obtain ⟨location, columns, hrow⟩ := messageOfRow_of_rowMessage hm
    rw [List.forall_mem_append]
    exact ⟨ih, List.forall_mem_singleton.mpr (row location columns _ m hrow)⟩

/-! ## Cells -/

theorem nonEmptyOfCell_eq_ok {s : String} :
    nonEmptyOfCell location column cell = .ok s ↔ cell = .text s ∧ s ≠ "" := by
  unfold nonEmptyOfCell
  split
  · rename_i text
    by_cases hempty : text = ""
    · subst hempty
      refine iff_of_false (fun h => nomatch h) ?_
      rintro ⟨htext, hne⟩
      cases htext
      exact hne rfl
    · have hfalse : text.isEmpty = false := by simpa using hempty
      simp only [hfalse, Bool.false_eq_true, if_false, Except.ok.injEq, Cell.text.injEq]
      constructor
      · rintro rfl
        exact ⟨rfl, hempty⟩
      · exact And.left
  · rename_i hother
    simp only [reduceCtorEq, false_iff]
    rintro ⟨rfl, -⟩
    exact hother s rfl

/-- A field is read from the cells that give it. -/
theorem fieldOfCell_eq_ok {f : Field} : fieldOfCell location cell = .ok f ↔ GivesField cell f := by
  constructor
  · intro h
    unfold fieldOfCell at h
    split at h
    · split at h
      · rename_i hread
        cases h
        exact .declaration hread
      · cases h
    · cases h
      exact .pair
    · cases h
  · rintro (hread | _)
    · simp [fieldOfCell, hread]
    · rfl

theorem fieldsOfCell_eq_ok {fields : List Field} :
    fieldsOfCell location cell = .ok fields ↔ GivesFields cell fields := by
  constructor
  · intro h
    unfold fieldsOfCell at h
    split at h
    · cases h
      exact .absent
    · exact .list ((mapM_eq_ok.mp h).imp fun _ _ => fieldOfCell_eq_ok.mp)
    · cases h
  · rintro (_ | hitems)
    · rfl
    · exact mapM_eq_ok.mpr (hitems.imp fun _ _ => fieldOfCell_eq_ok.mpr)

/-- A tail is read from the cells that give one or none. -/
theorem tailOfCell_eq_ok {tail : Option Tail} :
    tailOfCell location cell = .ok tail ↔ GivesTail cell tail := by
  constructor
  · intro h
    unfold tailOfCell at h
    split at h <;> cases h
    · exact .absent
    · exact .pair rfl
    · exact .pair rfl
  · rintro (_ | hitems)
    · rfl
    · cases cell <;> cases hitems <;> rfl

theorem exists_split_fieldsOfCell {fields : List Field}
    (h : fieldsOfCell location cell = .ok fields) : ∀ f ∈ fields, ∃ gap, f.Split gap := by
  obtain _ | hitems := fieldsOfCell_eq_ok.mp h
  · simp
  · intro f hf
    obtain ⟨item, -, hitem⟩ := exists_left_of_forall₂ hitems hf
    exact hitem.exists_split

/-- Only the column of fields changes the fields of the message of a row. -/
theorem fields_setCell {column : Column} {cell : Cell}
    (h : setCell location m column cell = .ok n) :
    n.fields = m.fields ∨ fieldsOfCell location cell = .ok n.fields := by
  cases column with
  | name | shortName | tail =>
    obtain ⟨_, -, rfl⟩ := map_eq_ok.mp h
    exact .inl rfl
  | value | description =>
    cases cell <;> cases h <;> exact .inl rfl
  | fields =>
    obtain ⟨_, hfields, rfl⟩ := map_eq_ok.mp h
    exact .inr hfields
  | extra label =>
    cases h
    exact .inl rfl

theorem exists_split_messageOfRow (h : messageOfRow location columns cells = .ok m) :
    ∀ f ∈ m.fields, ∃ gap, f.Split gap := by
  refine foldlM_preserves (P := fun m : Message => ∀ f ∈ m.fields, ∃ gap, f.Split gap) ?_ ?_ h
  · intro m cell n hm hn
    rcases fields_setCell hn with hsame | hset
    · rw [hsame]
      exact hm
    · exact exists_split_fieldsOfCell hset
  · simp

/-- The declarations of all fields of a table have three parts. -/
theorem Reachable.exists_split (ht : t.Reachable) :
    ∀ m ∈ t.messages, ∀ f ∈ m.fields, ∃ gap, f.Split gap :=
  ht.forall_messages fun _ _ _ _ h => exists_split_messageOfRow h

end Table

end MessageSchema
