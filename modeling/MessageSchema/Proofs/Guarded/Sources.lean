import MessageSchema.Proofs.Guarded.Literals
import MessageSchema.Proofs.Guarded.Rows
import MessageSchema.Proofs.Source.Trees
import MessageSchema.Source.Evaluate

/-!
# From parse trees to schemas

A parse tree is taken apart node by node, with regard to what a node might lack: there may be no
tree, an option may have no key or no value, a text no content, and a node that is no term may
stand where a cell is expected. `parseGuarded` breaks in each of these cases. The trees that are
read have none of them, so it does what `parse` does: `parseGuarded_eq`.

- **Cells** (`cellGuarded_eq`): by induction on the term, along with its tree.
- **Sections** (`addTreeGuarded_eq`): the table being built is one that calls have built, which is
  what `declareRowGuarded` relies on.
-/

namespace MessageSchema.Source

open Guarded

/-! ## Cells -/

mutual

/-- The cell that a tree stands for. -/
def Tree.cellGuarded : Tree → Guarded SourceError Cell
  | .node label text children =>
    match label with
    | .rule .absent => .ok .absent
    | .rule .boolean => .ok (.bool (text == "true"))
    | .rule .integer => ((integerGuarded text.toList).within (.badInteger text)).map .integer
    | .rule .text => do
      let content ← found .missingContent children.head?
      let unescaped ← unescapeGuarded content.text.toList
      return .text (String.ofList unescaped)
    | .rule .list => (cellsGuarded children).map .list
    | .rule .tuple => (cellsGuarded children).map .tuple
    | _ => fault .unexpectedValue

/-- The cells that trees stand for. -/
def cellsGuarded : List Tree → Guarded SourceError (List Cell)
  | [] => .ok []
  | tree :: trees => do
    let cell ← tree.cellGuarded
    let cells ← cellsGuarded trees
    return cell :: cells

end

mutual

/-- Evaluating the tree of a term does not break. -/
theorem cellGuarded_eq : ∀ {term : Term} {tree : Tree}, TermTree tree term →
    tree.cellGuarded = guarded term.cell
  | .absent, _, .absent => rfl
  | .bool _, _, .bool => rfl
  | .integer literal, _, .integer h => by
    rw [Tree.cellGuarded, Term.cell, integerGuarded_eq h, within_guarded]
    rcases integerOfLiteral literal.toList with fault | n <;> rfl
  | .text content, _, .text h => by
    rw [Tree.cellGuarded, Term.cell]
    show (unescapeGuarded content.toList >>= fun unescaped =>
      .ok (Cell.text (String.ofList unescaped))) = _
    rw [unescapeGuarded_eq h]
    rfl
  | .list _, _, .list h => by
    rw [Tree.cellGuarded, Term.cell, guarded_map, cellsGuarded_eq h]
  | .tuple _, _, .tuple h => by
    rw [Tree.cellGuarded, Term.cell, guarded_map, cellsGuarded_eq h]

theorem cellsGuarded_eq : ∀ {terms : List Term} {trees : List Tree},
    List.Forall₂ TermTree trees terms → cellsGuarded trees = guarded (cellsOfTerms terms)
  | [], _, .nil => rfl
  | term :: terms, _, .cons h hs => by
    rw [cellsGuarded, cellsOfTerms, cellGuarded_eq h, cellsGuarded_eq hs]
    simp only [guarded_bind]
    rfl

end

example : (Tree.node (.rule .columns) "(name)" []).cellGuarded = fault .unexpectedValue := rfl

namespace Declared

/-- Goes on with the table after a guarded step of building it. -/
def withTableGuarded (d : Declared) (step : Guarded TableError Table) :
    Guarded SourceError Declared :=
  (step.within .table).map fun table => { d with table }

/-- Declares the option of an entry. -/
def addOptionGuarded (d : Declared) (tree : Tree) : Guarded SourceError Declared := do
  let key ← found .missingKey tree.children[0]?
  let value ← found .missingValue tree.children[1]?
  let cell ← value.cellGuarded
  return { d with options := d.options ++ [(key.text, cell)] }

/-- Declares the columns or a row of a table section. -/
def addTablePartGuarded (d : Declared) (tree : Tree) : Guarded SourceError Declared :=
  match tree.label with
  | .rule .columns =>
    d.withTableGuarded (guarded (d.table.declareColumns (tree.children.map Tree.text)))
  | .rule .tuple => do
    let cells ← cellsGuarded tree.children
    d.withTableGuarded (d.table.declareRowGuarded cells)
  | _ => .ok d

/-- Declares what a section says; other trees say nothing. -/
def addTreeGuarded (d : Declared) (tree : Tree) : Guarded SourceError Declared :=
  match tree.label with
  | .rule .optionsSection => tree.children.foldlM addOptionGuarded d
  | .rule .tableSection => tree.children.foldlM addTablePartGuarded d
  | _ => .ok d

variable {d next : Declared}

theorem withTableGuarded_eq (d : Declared) (step : Except TableError Table) :
    d.withTableGuarded (guarded step) = guarded (d.withTable step) := by
  cases step <;> rfl

/-! What is declared keeps a table that calls have built. -/

/-- The table is one that calls have built. -/
def Built (d : Declared) : Prop :=
  d.table.Reachable

theorem built_withTable {step : Except TableError Table}
    (hstep : ∀ table, step = .ok table → table.Reachable) (h : d.withTable step = .ok next) :
    next.Built := by
  cases step with
  | error e => cases h
  | ok table =>
    cases h
    exact hstep table rfl

theorem Built.declareColumns {names : List String} (hd : d.Built)
    (h : d.withTable (d.table.declareColumns names) = .ok next) : next.Built :=
  built_withTable (fun _ htable => Table.Reachable.declareColumns hd htable) h

theorem Built.addOption {entry : String × Term} (hd : d.Built)
    (h : d.addOption entry = .ok next) : next.Built := by
  obtain ⟨cell, -, h⟩ := bind_eq_ok.mp h
  cases h
  exact hd

theorem Built.addRow {terms : List Term} (hd : d.Built) (h : d.addRow terms = .ok next) :
    next.Built := by
  obtain ⟨cells, -, h⟩ := bind_eq_ok.mp h
  exact built_withTable (fun _ htable => Table.Reachable.declareRow hd htable) h

/-- What is built from one more section has a reachable table again. -/
theorem Built.addSection {part : Section} (hd : d.Built) (h : d.addSection part = .ok next) :
    next.Built := by
  cases part with
  | options entries =>
    exact foldlM_preserves (P := Built) (fun _ _ _ hd h => hd.addOption h) hd h
  | table columns rows =>
    obtain ⟨withColumns, hcolumns, hrows⟩ := bind_eq_ok.mp h
    exact foldlM_preserves (P := Built) (fun _ _ _ hd h => hd.addRow h)
      (hd.declareColumns hcolumns) hrows

/-! What the trees of sections say is said by the sections. -/

theorem addOptionGuarded_eq (d : Declared) {tree : Tree} {entry : String × Term}
    (h : EntryTree tree entry) : d.addOptionGuarded tree = guarded (d.addOption entry) := by
  obtain ⟨⟨⟩, hvalue⟩ := h
  rw [addOption, guarded_bind, ← cellGuarded_eq hvalue]
  rfl

theorem addRowGuarded_eq (hd : d.Built) {tree : Tree} {terms : List Term}
    (h : RowTree tree terms) : d.addTablePartGuarded tree = guarded (d.addRow terms) := by
  obtain ⟨hcells⟩ := h
  rw [addRow, guarded_bind, ← cellsGuarded_eq hcells]
  refine congrArg (cellsGuarded _ >>= ·) (funext fun cells => ?_)
  rw [Table.declareRowGuarded_eq hd, withTableGuarded_eq]

/-- The trees of names have the names as their texts. -/
theorem map_text_of_names {trees : List Tree} {names : List String}
    (h : List.Forall₂ NameTree trees names) : trees.map Tree.text = names := by
  induction h with
  | nil => rfl
  | cons h _ ih =>
    cases h
    exact congrArg (_ :: ·) ih

/-- Adding the tree of a section does not break. -/
theorem addTreeGuarded_eq (hd : d.Built) {tree : Tree} {part : Section}
    (h : SectionTree tree part) : d.addTreeGuarded tree = guarded (d.addSection part) := by
  cases h with
  | options hentries =>
    exact foldlM_eq_guarded (P := fun _ => True) (R := EntryTree)
      (fun d _ _ _ h => addOptionGuarded_eq d h) (fun _ _ _ _ _ => trivial) hentries trivial
  | @table _ _ columns rows names terms hnames hrows =>
    show (d.withTableGuarded (guarded (d.table.declareColumns (columns.map Tree.text))) >>=
      fun d => rows.foldlM addTablePartGuarded d) = _
    rw [map_text_of_names hnames, withTableGuarded_eq, addSection, guarded_bind]
    rcases hcolumns : d.withTable (d.table.declareColumns names) with e | withColumns
    · rfl
    · exact foldlM_eq_guarded (P := Built) (R := RowTree) (fun _ _ _ hd h => addRowGuarded_eq hd h)
        (fun _ _ _ hd h => hd.addRow h) hrows (hd.declareColumns hcolumns)

end Declared

/-! ## Sources -/

/-- `parse` by way of a parse tree. -/
def parseGuarded (source : String) : Guarded SourceError SchemaSource :=
  let chars := source.toList
  match documentTree (chars.length + 1) ⟨0, chars⟩ {} with
  | (none, attempts) => report (.malformed (.ofAttempts chars attempts))
  | (some (trees, _), _) => do
    let root ← found .emptyParse trees.head?
    let d ← root.children.foldlM Declared.addTreeGuarded {}
    return ⟨d.table.messages, d.options⟩

/-- The end of a source says nothing. -/
theorem foldlM_addTreeGuarded (trees : List Tree) (text : String) (d : Declared) :
    (trees ++ [endNode text]).foldlM Declared.addTreeGuarded d =
      trees.foldlM Declared.addTreeGuarded d := by
  rw [List.foldlM_append]
  rcases trees.foldlM Declared.addTreeGuarded d with problem | next <;> rfl

/-- No part of a parse tree is missing, and no cell of a row. -/
theorem parseGuarded_eq (source : String) : parseGuarded source = guarded (parse source) := by
  unfold parseGuarded parse Document.read?
  dsimp only
  -- the tree and the document come from the same attempts
  rcases agree_document (source.toList.length + 1) ⟨0, source.toList⟩ {} with
    ⟨attempts, htree, hdocument⟩ | ⟨_, document, c, attempts, hroot, htree, hdocument⟩
  · rw [htree, hdocument]
    rfl
  · rw [htree, hdocument]
    obtain ⟨_, rfl, @⟨text, finish, trees, sections, hsections⟩⟩ := hroot
    have hdeclare : (trees ++ [endNode finish]).foldlM Declared.addTreeGuarded {} =
        guarded (document.foldlM Declared.addSection {}) := by
      rw [foldlM_addTreeGuarded]
      exact foldlM_eq_guarded (P := Declared.Built) (R := SectionTree)
        (fun _ _ _ hd h => Declared.addTreeGuarded_eq hd h) (fun _ _ _ hd h => hd.addSection h)
        hsections Table.Reachable.empty
    show ((trees ++ [endNode finish]).foldlM Declared.addTreeGuarded {} >>=
      fun d => .ok ⟨d.table.messages, d.options⟩) = guarded document.evaluate
    rw [hdeclare, Document.evaluate, guarded_bind]
    rfl

end MessageSchema.Source
