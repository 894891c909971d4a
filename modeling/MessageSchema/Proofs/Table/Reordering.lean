import MessageSchema.Proofs.Column
import MessageSchema.Proofs.Table.Resolved

/-!
# Columns in another order and under other names

Rows with their cells in the order `order` (`rearranged`) make the same messages under columns in
that order, whichever names the columns have. A list is paired with another one in the same order as
it was before (`forall₂_rearranged`), and what a row declares does not depend on the order of its
pairs of column and cell (`declares_rearranged`). Main statement: `sameMessages_rearranged`.
-/

namespace MessageSchema

section Lists

variable {α β : Type} {R : α → β → Prop} {order : List Nat} {n : Nat} {xs : List α} {ys : List β}

/-- The items of a list in the order of their positions; items without a position stay behind. -/
def rearranged (order : List Nat) (xs : List α) : List α :=
  order.filterMap (xs[·]?) ++ xs.drop order.length

theorem filterMap_range (n : Nat) (xs : List α) :
    (List.range n).filterMap (xs[·]?) = xs.take n := by
  induction n with
  | zero => rfl
  | succ n ih =>
    rw [List.range_succ, List.filterMap_append, ih, List.take_add_one]
    cases h : xs[n]? <;> simp [h]

theorem rearranged_perm (horder : order.Perm (List.range n)) (xs : List α) :
    (rearranged order xs).Perm xs := by
  have hlength : order.length = n := by rw [horder.length_eq, List.length_range]
  have hfront : (order.filterMap (xs[·]?)).Perm (xs.take n) := by
    rw [← filterMap_range]
    exact horder.filterMap _
  rw [rearranged, hlength]
  exact (hfront.append_right _).trans (by rw [List.take_append_drop])

theorem map_rearranged (f : α → β) (order : List Nat) (xs : List α) :
    (rearranged order xs).map f = rearranged order (xs.map f) := by
  simp [rearranged, List.map_filterMap, List.map_drop]

/-- Pairs in another order are the parts in that order, paired. -/
theorem zip_rearranged (hlength : xs.length = ys.length) (order : List Nat) :
    (rearranged order xs).zip (rearranged order ys) = rearranged order (xs.zip ys) := by
  have hfirst : (rearranged order (xs.zip ys)).map Prod.fst = rearranged order xs := by
    rw [map_rearranged, List.map_fst_zip (by omega)]
  have hsecond : (rearranged order (xs.zip ys)).map Prod.snd = rearranged order ys := by
    rw [map_rearranged, List.map_snd_zip (by omega)]
  rw [← hfirst, ← hsecond, List.zip_map']
  exact List.map_id _

/-- Lists side by side stay so if both are rearranged. -/
theorem forall₂_rearranged (horder : order.Perm (List.range n)) :
    List.Forall₂ R (rearranged order xs) (rearranged order ys) ↔ List.Forall₂ R xs ys := by
  rw [List.forall₂_iff_zip, List.forall₂_iff_zip, (rearranged_perm horder xs).length_eq,
    (rearranged_perm horder ys).length_eq]
  refine and_congr_right fun hlength => ?_
  rw [zip_rearranged hlength]
  simp only [(rearranged_perm horder (xs.zip ys)).mem_iff]

end Lists

namespace Table

open Column

variable {order : List Nat} {n : Nat} {columns others : List Column} {cells : List Cell}
  {m : Message} {names otherNames : List String}

theorem ValidColumns.perm (h : ValidColumns columns) (hperm : columns.Perm others) :
    ValidColumns others where
  nodup := hperm.nodup h.nodup
  name_mem := hperm.mem_iff.mp h.name_mem
  shortName_mem := hperm.mem_iff.mp h.shortName_mem

/-- A row declares the same message with its cells in another order. -/
theorem declares_rearranged (horder : order.Perm (List.range n)) (hnodup : columns.Nodup) :
    Declares (rearranged order columns) (rearranged order cells) m ↔ Declares columns cells m := by
  have hperm := rearranged_perm horder columns
  rw [declares_iff hnodup, declares_iff (hperm.symm.nodup hnodup), forall₂_rearranged horder]
  simp only [hperm.mem_iff]

/-- Columns are the same under aliases. -/
theorem map_ofName_of_aliases (h : List.Forall₂ Alias names otherNames) :
    names.map ofName = otherNames.map ofName := by
  induction h with
  | nil => rfl
  | cons halias _ ih => rw [List.map_cons, List.map_cons, ofName_eq_iff.mpr halias, ih]

/-- Column names that make the same messages as other ones, with the cells of all rows in the order
of the columns. -/
structure SameMessages (names otherNames : List String) (order : List Nat) : Prop where
  columns : (∃ t, ({} : Table).declareColumns names = .ok t) ↔
    ∃ t, ({} : Table).declareColumns otherNames = .ok t
  rows : ∀ (rows : List (List Cell)) (messages : List Message),
    (∃ t, ofRows names rows = .ok t ∧ t.messages = messages) ↔
      ∃ t, ofRows otherNames (rows.map (rearranged order)) = .ok t ∧ t.messages = messages

theorem exists_declareColumns {names : List String} :
    (∃ t, ({} : Table).declareColumns names = .ok t) ↔ ValidColumns (names.map ofName) := by
  simp [declareColumns_eq_ok]

/-- Rows make messages just under valid columns and one by one. -/
theorem exists_ofRows {rows : List (List Cell)} {messages : List Message} :
    (∃ t, ofRows names rows = .ok t ∧ t.messages = messages) ↔ ValidColumns (names.map ofName) ∧
      List.Forall₂ (Declares (names.map ofName)) rows messages := by
  constructor
  · rintro ⟨t, ht, rfl⟩
    obtain ⟨hvalid, -, hrows⟩ := ofRows_eq_ok.mp ht
    exact ⟨hvalid, hrows⟩
  · rintro ⟨hvalid, hrows⟩
    exact ⟨⟨some (names.map ofName), messages⟩, ofRows_eq_ok.mpr ⟨hvalid, rfl, hrows⟩, rfl⟩

/-- Neither the order of the columns nor which of its names a column has changes the messages of a
table. -/
theorem sameMessages_rearranged (horder : order.Perm (List.range names.length))
    (haliases : List.Forall₂ Alias (rearranged order names) otherNames) :
    SameMessages names otherNames order := by
  have hcolumns : otherNames.map ofName = rearranged order (names.map ofName) := by
    rw [← map_ofName_of_aliases haliases, map_rearranged]
  have hperm := rearranged_perm horder (names.map ofName)
  have hvalid : ValidColumns (names.map ofName) ↔ ValidColumns (otherNames.map ofName) := by
    rw [hcolumns]
    exact ⟨fun h => h.perm hperm.symm, fun h => h.perm hperm⟩
  refine ⟨by rw [exists_declareColumns, exists_declareColumns, hvalid], fun rows messages => ?_⟩
  rw [exists_ofRows, exists_ofRows, ← hvalid, List.forall₂_map_left_iff, hcolumns]
  refine and_congr_right fun hcolumns => ?_
  simp only [declares_rearranged horder hcolumns.nodup]

/-- Four columns in another order, three of them under their other names. -/
theorem sameMessages_sample :
    SameMessages ["name", "value", "shortname", "va_data"]
      ["variable_tail", "short_name", "name", "explicit_value"] [3, 2, 0, 1] ∧
    ∃ t, ofRows ["variable_tail", "short_name", "name", "explicit_value"]
        [[.tuple [.text "long", .text "items"], .text "ping", .text "PING", .integer 3]] = .ok t ∧
      t.messages = [{ name := "PING", shortName := "ping", explicitValue := some 3,
                      tail := some ⟨"long", "items"⟩ }] := by
  have haliases : List.Forall₂ Alias ["va_data", "shortname", "name", "value"]
      ["variable_tail", "short_name", "name", "explicit_value"] := by
    decide
  have hsame : SameMessages ["name", "value", "shortname", "va_data"]
      ["variable_tail", "short_name", "name", "explicit_value"] [3, 2, 0, 1] :=
    sameMessages_rearranged (by decide) haliases
  exact ⟨hsame, (hsame.rows [[.text "PING", .integer 3, .text "ping",
    .tuple [.text "long", .text "items"]]] _).mp ⟨_, rfl, rfl⟩⟩

end Table

end MessageSchema
