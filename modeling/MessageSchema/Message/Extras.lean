import MessageSchema.Cell

/-!
# Uninterpreted columns

`Extras` holds the cells of the columns that the schema gives no meaning to, by column name. The
entries are sorted by name and a name stands once, so two tables that assign the same cells to the
same names are equal, in whichever order they were filled.
-/

namespace MessageSchema

/-- Entries sorted by name; each name stands at most once. -/
def SortedByName (entries : List (String × Cell)) : Prop :=
  entries.Pairwise (·.1 < ·.1)

/-- Cells by column name. -/
structure Extras where
  entries : List (String × Cell) := []
  sorted : SortedByName entries := by exact List.Pairwise.nil

namespace Extras

/-- No cells. -/
def empty : Extras :=
  {}

/-- `set` on the sorted entries. -/
def setEntry (name : String) (cell : Cell) : List (String × Cell) → List (String × Cell)
  | [] => [(name, cell)]
  | e :: es =>
    if name < e.1 then (name, cell) :: e :: es
    else if name = e.1 then (name, cell) :: es
    else e :: setEntry name cell es

theorem fst_mem_setEntry {name : String} {cell : Cell} {es : List (String × Cell)}
    {x : String × Cell} (h : x ∈ setEntry name cell es) : x.1 = name ∨ x ∈ es := by
  induction es with
  | nil => simp_all [setEntry]
  | cons e es ih =>
    unfold setEntry at h
    split at h
    · grind
    · split at h <;> grind

/-- Setting an entry keeps the entries sorted. -/
theorem sorted_setEntry {name : String} {cell : Cell} {es : List (String × Cell)}
    (h : SortedByName es) : SortedByName (setEntry name cell es) := by
  induction es with
  | nil => exact List.pairwise_singleton _ _
  | cons e es ih =>
    have ⟨he, hes⟩ := List.pairwise_cons.mp h
    unfold setEntry
    split
    · rename_i hlt
      refine List.pairwise_cons.mpr ⟨fun x hx => ?_, h⟩
      rcases List.mem_cons.mp hx with rfl | hx
      · exact hlt
      · exact String.lt_trans hlt (he x hx)
    · split
      · rename_i heq
        exact List.pairwise_cons.mpr ⟨fun x hx => heq ▸ he x hx, hes⟩
      · rename_i hnlt hne
        refine List.pairwise_cons.mpr ⟨fun x hx => ?_, ih hes⟩
        rcases fst_mem_setEntry hx with hx | hx
        · rw [hx]
          exact Std.lt_of_le_of_ne (String.not_lt.mp hnlt) (Ne.symm hne)
        · exact he x hx

/-- Gives the cell to the name; a cell the name had before is dropped. -/
def set (x : Extras) (name : String) (cell : Cell) : Extras :=
  ⟨setEntry name cell x.entries, sorted_setEntry x.sorted⟩

/-- The cell of a name. -/
def get? (x : Extras) (name : String) : Option Cell :=
  x.entries.lookup name

end Extras

end MessageSchema
