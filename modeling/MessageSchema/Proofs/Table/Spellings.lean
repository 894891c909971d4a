import MessageSchema.Proofs.Field.Declaration
import MessageSchema.Proofs.Table.Resolved

/-!
# Fields as pairs and as declarations

A field can be given to a row as a pair of a type and a name, or as a declaration in one text. What
is read of a text has a type (`Field.Parts`), and nobody looks at the type of a pair. So a pair can
be spelled as a text just if its type is not blank, and it is then the same field, its type trimmed
(`exists_resolves_text`). Main statement: `sameRules_iff`.

- **Places** (`CellPlace`, `FieldPlace`): rows without one item, and messages without the field
  that it gives. Any other item that gives a field of the same name can stand in its place
  (`exists_resolves`).
-/

namespace MessageSchema.Table

open Text

/-! ## Places -/

/-- Rows without one item in the list of fields of one of them. -/
structure CellPlace where
  above : List (List Cell)
  left : List Cell
  front : List Cell
  back : List Cell
  right : List Cell
  below : List (List Cell)

/-- Messages without one of the fields of one of them. -/
structure FieldPlace where
  before : List Message
  message : Message
  front : List Field
  back : List Field
  after : List Message

namespace CellPlace

/-- The row with an item in its place. -/
def row (place : CellPlace) (item : Cell) : List Cell :=
  place.left ++ .list (place.front ++ item :: place.back) :: place.right

/-- The rows with an item in its place. -/
def rows (place : CellPlace) (item : Cell) : List (List Cell) :=
  place.above ++ place.row item :: place.below

/-- The list that lacks an item stands in the column of fields. -/
def InFields (place : CellPlace) (columns : List Column) : Prop :=
  ∃ earlier later, columns = earlier ++ .fields :: later ∧ earlier.length = place.left.length

end CellPlace

namespace FieldPlace

/-- The message with a field in its place. -/
def fill (place : FieldPlace) (f : Field) : Message :=
  { place.message with fields := place.front ++ f :: place.back }

/-- The messages with a field in its place. -/
def messages (place : FieldPlace) (f : Field) : List Message :=
  place.before ++ place.fill f :: place.after

end FieldPlace

/-- The messages of the rows around a place, and of the row itself once the item is there. -/
structure Leads (columns : List Column) (place : CellPlace) (target : FieldPlace) : Prop where
  above : List.Forall₂ (Declares columns) place.above target.before
  front : List.Forall₂ GivesField place.front target.front
  row : ∀ {item f}, GivesField item f → Declares columns (place.row item) (target.fill f)
  below : List.Forall₂ (Declares columns) place.below target.after

variable {columns : List Column} {place : CellPlace} {target : FieldPlace} {item : Cell}
  {f g : Field} {m : Message} {messages : List Message} {column : Column} {cells : List Cell}

theorem Leads.rows (h : Leads columns place target) (hf : GivesField item f) :
    List.Forall₂ (Declares columns) (place.rows item) (target.messages f) :=
  List.rel_append h.above (.cons (h.row hf) h.below)

theorem content_fields_of_ne (m : Message) (fields : List Field) (h : column ≠ .fields) :
    ({ m with fields } : Message).content column = m.content column := by
  cases column <;> first | rfl | exact absurd rfl h

/-- Cells of other columns spell a message with other fields, too. -/
theorem spelled_with_fields (fields : List Field) (hother : .fields ∉ columns)
    (h : List.Forall₂ (fun column cell => column.Spells cell (m.content column)) columns cells) :
    List.Forall₂ (fun column cell =>
      column.Spells cell (({ m with fields } : Message).content column)) columns cells := by
  have hne : ∀ column ∈ columns, column ≠ .fields := fun column hmem heq => hother (heq ▸ hmem)
  have hboth := (List.forall₂_and_left (p := (· ≠ .fields)) columns cells).mpr ⟨hne, h⟩
  refine hboth.imp fun column cell hspelled => ?_
  rw [content_fields_of_ne m fields hspelled.1]
  exact hspelled.2

/-- An item among the fields of a row gives one field of its message, and any other item can stand
there for another one. -/
theorem exists_fill (hnodup : columns.Nodup) (hplace : place.InFields columns)
    (h : Declares columns (place.row item) m) : ∃ front f back, m.fields = front ++ f :: back ∧
      List.Forall₂ GivesField place.front front ∧ GivesField item f ∧
      ∀ {item' g}, GivesField item' g →
        Declares columns (place.row item') { m with fields := front ++ g :: back } := by
  obtain ⟨earlier, later, rfl, hlength⟩ := hplace
  obtain ⟨hspelled, hrest⟩ := (declares_iff hnodup).mp h
  obtain ⟨left, cell, right, hcells, hleft, hcell, hright⟩ := forall₂_append_cons_iff.mp hspelled
  obtain ⟨rfl, hsame⟩ := List.append_inj hcells (hlength.symm.trans hleft.length_eq)
  cases hsame
  obtain ⟨front, f, back, hfields, hfront, hf, hback⟩ := forall₂_append_cons_iff.mp hcell.items
  refine ⟨front, f, back, hfields, hfront, hf, fun {item' g} hg => (declares_iff hnodup).mpr ?_⟩
  have hearlier : .fields ∉ earlier := not_mem_of_nodup_append_cons hnodup
  have hlater : .fields ∉ later :=
    (List.nodup_cons.mp (List.Nodup.of_append_right hnodup)).1
  refine ⟨List.rel_append (spelled_with_fields _ hearlier hleft)
    (.cons ?_ (spelled_with_fields _ hlater hright)), fun other hother => ?_⟩
  · exact GivesFields.list (List.rel_append hfront (.cons hg hback))
  · have hne : other ≠ .fields := fun heq => hother (by simp [heq])
    rw [content_fields_of_ne m _ hne]
    exact hrest other hother

theorem exists_leads (hnodup : columns.Nodup) (hplace : place.InFields columns)
    (h : List.Forall₂ (Declares columns) (place.rows item) messages) :
    ∃ target f, Leads columns place target ∧ GivesField item f ∧ messages = target.messages f := by
  obtain ⟨before, m, after, rfl, habove, hrow, hbelow⟩ := forall₂_append_cons_iff.mp h
  obtain ⟨front, f, back, hfields, hfront, hf, hfill⟩ := exists_fill hnodup hplace hrow
  refine ⟨⟨before, m, front, back, after⟩, f, ⟨habove, hfront, hfill, hbelow⟩, hf, ?_⟩
  rw [FieldPlace.messages, FieldPlace.fill, ← hfields]

/-! ## Other items in a place -/

/-- Fields of one name can stand in one place. -/
theorem FieldPlace.checkedAlike (target : FieldPlace) (h : g.name = f.name) :
    List.Forall₂ Protocol.CheckedAlike (target.messages f) (target.messages g) := by
  have hrefl (messages : List Message) :
      List.Forall₂ Protocol.CheckedAlike messages messages :=
    List.forall₂_same.mpr fun m _ => .refl m
  refine List.rel_append (hrefl _) (.cons ⟨rfl, rfl, rfl, ?_, rfl⟩ (hrefl _))
  simp [fill, Message.memberNames, h]

variable {policy : DiscriminantPolicy} {names : List String} {rows : List (List Cell)}
  {p q : Protocol} {type name : String}

/-- An item stands for a field of the protocol, and can be replaced by any other that stands for a
field of that name. -/
theorem exists_resolves (h : Resolves policy names (place.rows item) p)
    (hplace : place.InFields (names.map Column.ofName)) : ∃ target f,
      Leads (names.map Column.ofName) place target ∧ GivesField item f ∧
      p.messages = target.messages f ∧ ∀ item' g, GivesField item' g → g.name = f.name →
        ∃ q, Resolves policy names (place.rows item') q ∧ q.messages = target.messages g ∧
          q.discriminants = p.discriminants := by
  obtain ⟨hvalid, hrows, hp⟩ := resolves_iff.mp h
  obtain ⟨target, f, hleads, hf, hmessages⟩ := exists_leads hvalid.nodup hplace hrows
  refine ⟨target, f, hleads, hf, hmessages, fun item' g hg hname => ?_⟩
  obtain ⟨q, hq, hothers, hnumbers⟩ :=
    Protocol.exists_resolve_of_alike hp (hmessages ▸ target.checkedAlike hname)
  exact ⟨q, resolves_iff.mpr ⟨hvalid, hothers ▸ hleads.rows hg, hothers.symm ▸ hq⟩, hothers,
    hnumbers⟩

/-- Two protocols that differ in one field only, which stands where the place in the rows says. -/
structure DifferIn (place : CellPlace) (p q : Protocol) (f g : Field) : Prop where
  messages : ∃ target : FieldPlace, target.before.length = place.above.length ∧
    target.front.length = place.front.length ∧ p.messages = target.messages f ∧
    q.messages = target.messages g
  discriminants : q.discriminants = p.discriminants

/-! ## Pairs spelled as declarations -/

/-- The name of a field of a protocol is an identifier. -/
theorem isCIdentifier_of_messages (hp : Protocol.resolve policy p.messages = .ok p)
    (hmessages : p.messages = target.messages f) : IsCIdentifier f.name := by
  obtain ⟨hvalid, -, -⟩ := Protocol.resolve_eq_ok.mp hp
  have hm : target.fill f ∈ p.messages := by simp [hmessages, FieldPlace.messages]
  refine (hvalid.valid _ hm).members.identifiers f.name ?_
  simp [FieldPlace.fill, Message.memberNames]

theorem exists_field_of_pair (htype : ¬ Blank type.toList) (hname : IsCIdentifier name) :
    ∃ f, Field.ofDeclaration (type ++ " " ++ name) = .ok f ∧ f.name = name ∧
      TrimmedFrom type.toList f.type.toList := by
  have hread := Field.ofDeclaration_pair_eq type hname
  rw [if_neg htype] at hread
  exact ⟨_, hread, rfl, by simpa using trimmedFrom_trim type.toList⟩

/-- A pair with a type that is not blank is a field under the same name and with the same type,
trimmed, when it is spelled as a declaration. -/
theorem exists_resolves_text
    (h : Resolves policy names (place.rows (.tuple [.text type, .text name])) p)
    (hplace : place.InFields (names.map Column.ofName)) (htype : ¬ Blank type.toList) :
    ∃ q f, Resolves policy names (place.rows (.text (type ++ " " ++ name))) q ∧ f.name = name ∧
      TrimmedFrom type.toList f.type.toList ∧ DifferIn place p q (.ofPair type name) f := by
  obtain ⟨target, f, hleads, hf, hmessages, hreplace⟩ := exists_resolves h hplace
  cases hf
  have hname := isCIdentifier_of_messages (resolves_iff.mp h).2.2 hmessages
  obtain ⟨f, hread, hsame, htrimmed⟩ := exists_field_of_pair htype hname
  obtain ⟨q, hq, hothers, hnumbers⟩ := hreplace _ f (.declaration hread) hsame
  exact ⟨q, f, hq, hsame, htrimmed, ⟨target, hleads.above.length_eq.symm,
    hleads.front.length_eq.symm, hmessages, hothers⟩, hnumbers⟩

/-- A pair that can be spelled as a declaration has a type that is not blank. -/
theorem not_blank_of_resolves_text
    (h : Resolves policy names (place.rows (.tuple [.text type, .text name])) p)
    (hplace : place.InFields (names.map Column.ofName))
    (hq : Resolves policy names (place.rows (.text (type ++ " " ++ name))) q) :
    ¬ Blank type.toList := by
  intro hblank
  obtain ⟨target, f, -, hf, hmessages, -⟩ := exists_resolves h hplace
  cases hf
  have hname := isCIdentifier_of_messages (resolves_iff.mp h).2.2 hmessages
  have hread := Field.ofDeclaration_pair_eq type hname
  rw [if_pos hblank] at hread
  obtain ⟨-, g, -, hg, -⟩ := exists_resolves hq hplace
  cases hg with
  | declaration hok => exact nomatch hread.symm.trans hok

/-- What is read of a text has a type that is not blank. -/
theorem not_blank_of_ofDeclaration {text : String} (h : Field.ofDeclaration text = .ok f) :
    ¬ Blank f.type.toList := by
  have hparts := Field.ofDeclaration_eq_ok.mp h
  intro hblank
  exact hparts.type_ne_empty (by simpa using hparts.type_tight.eq_nil hblank)

theorem itemIn_rows (hplace : place.InFields (names.map Column.ofName)) :
    ItemIn names (place.rows item) item := by
  obtain ⟨earlier, later, hcolumns, hlength⟩ := hplace
  refine ⟨place.front ++ item :: place.back, ⟨place.row item, ?_, ?_⟩, by simp⟩
  · simp [CellPlace.rows]
  · rw [hcolumns, CellPlace.row, List.zip_append hlength]
    simp

/-- No member has a blank type just if no pair of the rows has. -/
theorem typed_iff (h : Resolves policy names rows p) :
    (∀ m ∈ p.messages, ∀ type ∈ m.memberTypes, ¬ Blank type.toList) ↔
      ∀ type name, PairIn names rows type name → ¬ Blank type.toList := by
  constructor
  · intro hall type name hpair
    obtain ⟨m, hm, hmember⟩ := (member_iff h).mpr (.pair hpair)
    exact hall m hm type (mem_memberTypes.mpr ⟨name, hmember⟩)
  · intro hpairs m hm type htype
    obtain ⟨name, hmember⟩ := mem_memberTypes.mp htype
    cases (member_iff h).mp ⟨m, hm, hmember⟩ with
    | declaration _ hread => exact not_blank_of_ofDeclaration hread
    | pair hpair => exact hpairs _ _ hpair

/-- What it takes that the pairs of a protocol obey the rules of declarations. -/
structure SameRules (policy : DiscriminantPolicy) (names : List String) (rows : List (List Cell))
    (p : Protocol) : Prop where
  spelled : ∀ (place : CellPlace) type name, place.InFields (names.map Column.ofName) →
    rows = place.rows (.tuple [.text type, .text name]) →
    ∃ q f, Resolves policy names (place.rows (.text (type ++ " " ++ name))) q ∧ f.name = name ∧
      TrimmedFrom type.toList f.type.toList ∧ DifferIn place p q (.ofPair type name) f
  typed : ∀ m ∈ p.messages, ∀ type ∈ m.memberTypes, ¬ Blank type.toList

/-- Pairs obey the rules of declarations if none of them has a blank type; a pair with a blank type
is a field and cannot be spelled as a declaration. -/
theorem sameRules_iff (h : Resolves policy names rows p) :
    (SameRules policy names rows p ↔
      ∀ type name, PairIn names rows type name → ¬ Blank type.toList) ∧
    ∀ (place : CellPlace) type name, place.InFields (names.map Column.ofName) →
      rows = place.rows (.tuple [.text type, .text name]) →
      ((∃ q, Resolves policy names (place.rows (.text (type ++ " " ++ name))) q) ↔
        ¬ Blank type.toList) := by
  have htext (place : CellPlace) (type name : String)
      (hplace : place.InFields (names.map Column.ofName))
      (hrows : rows = place.rows (.tuple [.text type, .text name])) :
      (∃ q, Resolves policy names (place.rows (.text (type ++ " " ++ name))) q) ↔
        ¬ Blank type.toList := by
    subst hrows
    constructor
    · rintro ⟨q, hq⟩
      exact not_blank_of_resolves_text h hplace hq
    · intro htype
      obtain ⟨q, _, hq, -⟩ := exists_resolves_text h hplace htype
      exact ⟨q, hq⟩
  refine ⟨⟨fun hrules => (typed_iff h).mp hrules.typed, fun hpairs => ?_⟩, htext⟩
  refine ⟨fun place type name hplace hrows => ?_, (typed_iff h).mpr hpairs⟩
  subst hrows
  exact exists_resolves_text h hplace (hpairs type name (.inl (itemIn_rows hplace)))

/-- The place of the only field of the only message of a table. -/
def onePlace : CellPlace :=
  ⟨[], [.text "OPEN", .text "open"], [], [], [], []⟩

theorem sameRules_path : ∃ p,
    Resolves .unique ["name", "shortname", "data_fields"]
      (onePlace.rows (.tuple [.text "const char *", .text "path"])) p ∧
    SameRules .unique ["name", "shortname", "data_fields"]
      (onePlace.rows (.tuple [.text "const char *", .text "path"])) p := by
  have hrows : ∃ p,
      Resolves .unique ["name", "shortname", "data_fields"]
        (onePlace.rows (.tuple [.text "const char *", .text "path"])) p ∧
      ∀ m ∈ p.messages, ∀ type ∈ m.memberTypes, ¬ Blank type.toList :=
    ⟨_, ⟨_, rfl, rfl⟩, by decide⟩
  obtain ⟨p, h, htypes⟩ := hrows
  exact ⟨p, h, (sameRules_iff h).1.mpr ((typed_iff h).mp htypes)⟩

/-- A pair with an empty type is accepted. -/
theorem not_sameRules_untyped : ∃ p,
    Resolves .unique ["name", "shortname", "data_fields"]
      (onePlace.rows (.tuple [.text "", .text "x"])) p ∧
    ¬ SameRules .unique ["name", "shortname", "data_fields"]
      (onePlace.rows (.tuple [.text "", .text "x"])) p := by
  refine ⟨_, ⟨_, rfl, rfl⟩, fun hrules => ?_⟩
  exact hrules.typed _ List.mem_cons_self "" List.mem_cons_self blank_nil

end MessageSchema.Table
