import Mathlib.Data.List.Sort
import MessageSchema.Proofs.Table.Rows

/-!
# What the cells of a row say of its message

A message has one content for each column, and is what it has under all of them
(`Message.eq_of_content`). A cell that `Spells` a content gives it to the message, whatever the
other cells of the row are.

- **Cells** (`Column.Spells`): what a cell must be in a column, and what it says there. A cell says
  one thing only (`Spells.unique`).
- **Rows** (`declares_iff`): the cells of a row spell the contents of its message, column by column,
  and under all other columns the message has nothing. The order of the columns does not show.
-/

namespace MessageSchema

namespace Extras

variable {x y : Extras} {label other : String} {cell : Cell} {entries : List (String × Cell)}

theorem lookup_cons_eq (first : String) (content : Cell) (entries : List (String × Cell)) :
    ((first, content) :: entries).lookup label =
      if label = first then some content else entries.lookup label := by
  by_cases h : label = first
  · simp [h]
  · have hbeq : (label == first) = false := beq_false_of_ne h
    simp [List.lookup_cons, hbeq, h]

/-- An entry that is set is found, and every other one as before. -/
theorem lookup_setEntry (entries : List (String × Cell)) :
    (setEntry label cell entries).lookup other =
      if other = label then some cell else entries.lookup other := by
  induction entries with
  | nil => exact lookup_cons_eq label cell []
  | cons entry entries ih =>
    rcases entry with ⟨first, content⟩
    simp only [setEntry]
    split
    · exact lookup_cons_eq label cell _
    split
    · rename_i hfirst
      subst hfirst
      simp only [lookup_cons_eq]
      split <;> rfl
    · rename_i hfirst
      simp only [lookup_cons_eq, ih]
      by_cases h : other = first
      · have hlabel : other ≠ label := fun heq => hfirst (heq.symm.trans h)
        simp [h, h ▸ hlabel]
      · simp [h]

theorem get?_set (x : Extras) (label other : String) (cell : Cell) :
    (x.set label cell).get? other = if other = label then some cell else x.get? other :=
  lookup_setEntry x.entries

theorem mem_entries_iff (h : SortedByName entries) :
    (label, cell) ∈ entries ↔ entries.lookup label = some cell := by
  induction entries with
  | nil => simp
  | cons entry entries ih =>
    rcases entry with ⟨first, content⟩
    obtain ⟨hfirst, hrest⟩ := List.pairwise_cons.mp h
    rw [lookup_cons_eq, List.mem_cons, ih hrest, Prod.mk.injEq]
    by_cases heq : label = first
    · -- the label stands in front of the others
      have hnone : entries.lookup label ≠ some cell := fun hsome =>
        String.lt_irrefl _ (heq ▸ hfirst _ ((ih hrest).mpr hsome))
      simp [heq, heq ▸ hnone, eq_comm]
    · simp [heq]

/-- The cells of extra columns are what they are under all labels. -/
theorem eq_of_get? (h : ∀ label, x.get? label = y.get? label) : x = y := by
  rcases x with ⟨entries, hsorted⟩
  rcases y with ⟨others, hothers⟩
  simp only [mk.injEq]
  have : Std.Irrefl fun e f : String × Cell => e.1 < f.1 := ⟨fun e => String.lt_irrefl e.1⟩
  have : Std.Antisymm fun e f : String × Cell => e.1 < f.1 :=
    ⟨fun e f hef hfe => absurd hfe (String.lt_asymm hef)⟩
  refine List.Pairwise.eq_of_mem_iff hsorted hothers fun entry => ?_
  rw [mem_entries_iff hsorted, mem_entries_iff hothers]
  exact Eq.congr_left (h entry.1)

end Extras

/-! ## Contents -/

/-- What a message has under a column. -/
abbrev Column.Content : Column → Type
  | .name => String
  | .shortName => String
  | .value => Option Int64
  | .description => Option String
  | .fields => List Field
  | .tail => Option Tail
  | .extra _ => Option Cell

namespace Message

/-- The content under a column. -/
def content (m : Message) : (column : Column) → column.Content
  | .name => m.name
  | .shortName => m.shortName
  | .value => m.explicitValue
  | .description => m.description
  | .fields => m.fields
  | .tail => m.tail
  | .extra label => m.extras.get? label

/-- The message that no cell has been entered into. -/
def blank : Message :=
  { name := "", shortName := "" }

variable {m n : Message}

/-- Messages are what they have under all columns. -/
theorem eq_of_content (h : ∀ column, m.content column = n.content column) : m = n := by
  have hextras : m.extras = n.extras := Extras.eq_of_get? fun label => h (.extra label)
  cases m
  cases n
  simp only [mk.injEq]
  exact ⟨h .name, h .shortName, h .value, h .description, h .fields, h .tail, hextras⟩

end Message

/-! ## Cells -/

/-- The cells that stand for a content under a column. -/
def Column.Spells : (column : Column) → Cell → column.Content → Prop
  | .name, cell, s => cell = .text s ∧ s ≠ ""
  | .shortName, cell, s => cell = .text s ∧ s ≠ ""
  | .value, cell, n? => cell = .ofInteger? n?
  | .description, cell, s? => cell = .ofText? s?
  | .fields, cell, given => GivesFields cell given
  | .tail, cell, given => GivesTail cell given
  | .extra _, cell, given => given = some cell

namespace Table

variable {location : RowLocation} {column : Column} {cell : Cell} {m n : Message}

/-- A cell that spells a content can be entered. -/
theorem exists_setCell {content : column.Content} (h : column.Spells cell content) :
    ∃ n, setCell location m column cell = .ok n := by
  cases column with
  | name | shortName => exact ⟨_, map_eq_ok.mpr ⟨_, nonEmptyOfCell_eq_ok.mpr h, rfl⟩⟩
  | value | description =>
    rcases content with _ | content <;> cases h <;> exact ⟨_, rfl⟩
  | fields => exact ⟨_, map_eq_ok.mpr ⟨_, fieldsOfCell_eq_ok.mpr h, rfl⟩⟩
  | tail => exact ⟨_, map_eq_ok.mpr ⟨_, tailOfCell_eq_ok.mpr h, rfl⟩⟩
  | extra label => exact ⟨_, rfl⟩

/-- A cell that is entered spells what the message then has under its column, if it had nothing
there, and changes no other content. -/
theorem setCell_eq_ok (hblank : m.content column = Message.blank.content column)
    (h : setCell location m column cell = .ok n) :
    column.Spells cell (n.content column) ∧
      ∀ other ≠ column, n.content other = m.content other := by
  cases column with
  | name | shortName =>
    obtain ⟨s, hs, rfl⟩ := map_eq_ok.mp h
    refine ⟨nonEmptyOfCell_eq_ok.mp hs, fun other hother => ?_⟩
    cases other <;> first | rfl | exact absurd rfl hother
  | value | description =>
    cases cell <;> cases h
    · -- an absent cell leaves what a blank message has
      exact ⟨by rw [hblank]; rfl, fun _ _ => rfl⟩
    · refine ⟨rfl, fun other hother => ?_⟩
      cases other <;> first | rfl | exact absurd rfl hother
  | fields =>
    obtain ⟨fields, hfields, rfl⟩ := map_eq_ok.mp h
    refine ⟨fieldsOfCell_eq_ok.mp hfields, fun other hother => ?_⟩
    cases other <;> first | rfl | exact absurd rfl hother
  | tail =>
    obtain ⟨tail, htail, rfl⟩ := map_eq_ok.mp h
    refine ⟨tailOfCell_eq_ok.mp htail, fun other hother => ?_⟩
    cases other <;> first | rfl | exact absurd rfl hother
  | extra label =>
    cases h
    refine ⟨by simp [Column.Spells, Message.content, Extras.get?_set], fun other hother => ?_⟩
    cases other with
    | extra labelOther =>
      have hlabel : labelOther ≠ label := fun heq => hother (heq ▸ rfl)
      simp [Message.content, Extras.get?_set, hlabel]
    | name | value | description | shortName | fields | tail => rfl

end Table

/-- A cell stands for one content. -/
theorem Column.Spells.unique {column : Column} {cell : Cell} {c d : column.Content}
    (hc : column.Spells cell c) (hd : column.Spells cell d) : c = d := by
  cases column with
  | name | shortName => exact Cell.text.inj (hc.1.symm.trans hd.1)
  | value | description =>
    rcases c with _ | c <;> rcases d with _ | d <;> cases hc <;> cases hd <;> rfl
  | fields =>
    have hread (fields : List Field) : Table.fieldsOfCell ⟨0, none⟩ cell = .ok fields ↔
      GivesFields cell fields := Table.fieldsOfCell_eq_ok
    exact Except.ok.inj (((hread c).mpr hc).symm.trans ((hread d).mpr hd))
  | tail =>
    have hread (tail : Option Tail) : Table.tailOfCell ⟨0, none⟩ cell = .ok tail ↔
      GivesTail cell tail := Table.tailOfCell_eq_ok
    exact Except.ok.inj (((hread c).mpr hc).symm.trans ((hread d).mpr hd))
  | extra label => exact hc.trans hd.symm

theorem GivesField.unique {cell : Cell} {f g : Field} (hf : GivesField cell f)
    (hg : GivesField cell g) : f = g := by
  have hread (f : Field) : Table.fieldOfCell ⟨0, none⟩ cell = .ok f ↔ GivesField cell f :=
    Table.fieldOfCell_eq_ok
  exact Except.ok.inj (((hread f).mpr hf).symm.trans ((hread g).mpr hg))

theorem GivesFields.items {items : List Cell} {fields : List Field}
    (h : GivesFields (.list items) fields) : List.Forall₂ GivesField items fields := by
  cases h with
  | list hitems => exact hitems

theorem GivesFields.exists_item {cell : Cell} {fields : List Field} {f : Field}
    (h : GivesFields cell fields) (hf : f ∈ fields) :
    ∃ items item, cell = .list items ∧ item ∈ items ∧ GivesField item f := by
  cases h with
  | absent => cases hf
  | list hitems =>
    obtain ⟨item, hitem, hgives⟩ := exists_left_of_forall₂ hitems hf
    exact ⟨_, item, rfl, hitem, hgives⟩

theorem GivesTail.items {cell : Cell} {tail : Tail} (h : GivesTail cell (some tail)) :
    cell.items? = some [.text tail.elementType, .text tail.name] := by
  cases h with
  | pair hitems => exact hitems

namespace Table

variable {columns : List Column} {cells : List Cell}

/-- Cells entered one after another, each under a column of its own with nothing there so far. -/
theorem foldlM_setCell_eq_ok (hnodup : columns.Nodup) (hlength : cells.length = columns.length)
    (hblank : ∀ column ∈ columns, m.content column = Message.blank.content column) :
    (columns.zip cells).foldlM (fun m (column, cell) => setCell location m column cell) m = .ok n ↔
      List.Forall₂ (fun column cell => column.Spells cell (n.content column)) columns cells ∧
        ∀ column ∉ columns, n.content column = m.content column := by
  induction columns generalizing cells m with
  | nil =>
    obtain rfl := List.length_eq_zero_iff.mp hlength
    constructor
    · intro h
      cases h
      exact ⟨.nil, fun _ _ => rfl⟩
    · rintro ⟨-, hsame⟩
      rw [Message.eq_of_content fun column => hsame column List.not_mem_nil]
      rfl
  | cons column columns ih =>
    rcases cells with _ | ⟨cell, cells⟩
    · cases hlength
    obtain ⟨hnew, hnodup⟩ := List.nodup_cons.mp hnodup
    obtain ⟨hcolumn, hrest⟩ := List.forall_mem_cons.mp hblank
    have hlength := Nat.succ.inj hlength
    rw [List.zip_cons_cons, List.foldlM_cons, bind_eq_ok, List.forall₂_cons]
    -- entered behind the first cell, the others neither undo nor need it
    have hbehind {after : Message} (h : setCell location m column cell = .ok after) :=
      have hcell := setCell_eq_ok hcolumn h
      ih hnodup hlength fun other hother => by
        rw [hcell.2 other fun heq => hnew (heq ▸ hother)]
        exact hrest other hother
    constructor
    · rintro ⟨after, hafter, h⟩
      obtain ⟨hspells, hsame⟩ := setCell_eq_ok hcolumn hafter
      obtain ⟨hcells, hkept⟩ := (hbehind hafter).mp h
      refine ⟨⟨hkept column hnew ▸ hspells, hcells⟩, fun other hother => ?_⟩
      obtain ⟨hne, hother⟩ := not_or.mp (List.mem_cons.not.mp hother)
      rw [hkept other hother, hsame other hne]
    · rintro ⟨⟨hspells, hcells⟩, hkept⟩
      obtain ⟨after, hafter⟩ := exists_setCell hspells
      obtain ⟨hentered, hsame⟩ := setCell_eq_ok hcolumn hafter
      refine ⟨after, hafter, (hbehind hafter).mpr ⟨hcells, fun other hother => ?_⟩⟩
      by_cases hne : other = column
      · subst hne
        exact hspells.unique hentered
      · rw [hsame other hne, hkept other (List.mem_cons.not.mpr (not_or.mpr ⟨hne, hother⟩))]

/-- The cells of a row spell what its message has under their columns, and it has nothing else. -/
theorem declares_iff (hnodup : columns.Nodup) : Declares columns cells m ↔
    List.Forall₂ (fun column cell => column.Spells cell (m.content column)) columns cells ∧
      ∀ column ∉ columns, m.content column = Message.blank.content column := by
  constructor
  · intro h
    exact (foldlM_setCell_eq_ok hnodup h.length_eq fun _ _ => rfl).mp (h.message_eq ⟨0, none⟩)
  · intro h
    have hlength := h.1.length_eq.symm
    exact ⟨hlength, fun location =>
      (foldlM_setCell_eq_ok hnodup hlength fun _ _ => rfl).mpr h⟩

end Table

end MessageSchema
