import Mathlib.Data.List.Induction
import MessageSchema.Proofs.Table.Rows

/-!
# Runs of calls on one table

A table is filled in place: a `Call` works on the table that the calls before it have left, may
change it on its way, and ends with an answer or an error. `run calls` makes calls on a new table,
one after another and whatever they end with. Main statement: `accounted_run`, by which the table
is that of the accepted calls alone.

- **One call** (`outcome_columns`, `outcome_row`): made in place, a call gives the table that
  `declareColumns` and `declareRow` give (`apply_eq`), and leaves the table alone if they fail.
- **The next call** (`NextCall`): which calls are accepted, and what the errors say.
- **All calls** (`Accounted`): by induction on the last of them.
-/

namespace MessageSchema.Table

/-! ## Calls -/

/-- An operation on a table in place: it may change the table and then fail or give a result. -/
abbrev InPlace (α : Type) :=
  ExceptT TableError (StateM Table) α

/-- Fixes the columns of a table and their order. -/
def fixColumns (names : List String) : InPlace Unit := do
  if (← get).columns.isSome then throw .columnsAlreadyDeclared
  let columns ← ofExcept (columnsOfNames [] names)
  if let some missing := requiredColumns.find? (· ∉ columns) then throw (.missingColumn missing)
  modify fun t => { t with columns := some columns }

/-- Appends the message of a row to a table, and gives it back. -/
def appendRow (cells : List Cell) : InPlace Message := do
  let t ← get
  let some columns := t.columns | throw .columnsNotDeclared
  let row := t.messages.length + 1
  if cells.length ≠ columns.length then
    throw (.arityMismatch row columns.length cells.length)
  let m ← ofExcept (messageOfRow ⟨row, rowName columns cells⟩ columns cells)
  modify fun t => { t with messages := t.messages ++ [m] }
  return m

/-- A call on a table, with its arguments. -/
inductive Call where
  | columns (names : List String)
  | row (cells : List Cell)

/-- What a call ends with: an error, or the message of a row that it has declared. -/
abbrev Answer := Except TableError (Option Message)

namespace Call

/-- Makes a call. -/
def make : Call → InPlace (Option Message)
  | columns names => do
    fixColumns names
    return none
  | row cells => return some (← appendRow cells)

/-- The table that comes of a call. -/
def apply (call : Call) (t : Table) : Except TableError Table :=
  match call with
  | columns names => t.declareColumns names
  | row cells => t.declareRow cells

/-- The answer to a call in place on a table, and the table that the call leaves. -/
def outcome (call : Call) (t : Table) : Answer × Table :=
  call.make.run.run t

end Call

/-- Makes calls one after another, and notes the answer to each. -/
def makeAll (calls : List Call) : StateM Table (List (Call × Answer)) :=
  calls.mapM fun call => return (call, ← call.make.run)

/-- The answers to calls on a new table, and the table that they leave. -/
def run (calls : List Call) : List (Call × Answer) × Table :=
  (makeAll calls).run {}

variable {t : Table} {names : List String} {cells : List Cell} {calls : List Call}

/-! ## One call -/

theorem outcome_columns : (Call.columns names).outcome t = match t.declareColumns names with
    | .ok next => (.ok none, next)
    | .error e => (.error e, t) := by
  simp only [Call.outcome, Call.make, fixColumns, run_run_bind, run_run_get, declareColumns]
  rcases t with ⟨_ | columns, messages⟩
  · rcases columnsOfNames [] names with e | columns
    · rfl
    · simp only [Option.isSome_none, Bool.false_eq_true, if_false, run_run_bind, run_run_ofExcept]
      rcases requiredColumns.find? (· ∉ columns) <;> rfl
  · rfl

theorem outcome_row : (Call.row cells).outcome t = match t.rowMessage cells with
    | .ok m => (.ok (some m), { t with messages := t.messages ++ [m] })
    | .error e => (.error e, t) := by
  simp only [Call.outcome, Call.make, appendRow, run_run_bind, run_run_get, rowMessage]
  rcases t with ⟨_ | columns, messages⟩
  · rfl
  by_cases hlength : cells.length ≠ columns.length
  · simp only [if_pos hlength]
    rfl
  · simp only [if_neg hlength, run_run_bind, run_run_ofExcept]
    rcases messageOfRow _ columns cells <;> rfl

theorem apply_eq (call : Call) (t : Table) :
    call.apply t = (call.outcome t).1.map fun _ => (call.outcome t).2 := by
  cases call with
  | columns names =>
    rw [outcome_columns, Call.apply]
    rcases t.declareColumns names with e | next <;> rfl
  | row cells =>
    rw [outcome_row, Call.apply, declareRow]
    rcases t.rowMessage cells with e | m <;> rfl

/-- What a call can do: nothing, fix the columns, or append a message. -/
theorem outcome_cases (call : Call) (t : Table) :
    (∃ e, call.outcome t = (.error e, t)) ∨
    (∃ names, call = .columns names ∧ t.columns = none ∧ ValidColumns (names.map Column.ofName) ∧
      call.outcome t = (.ok none, { t with columns := some (names.map Column.ofName) })) ∨
    ∃ cells columns m, call = .row cells ∧ t.columns = some columns ∧ Declares columns cells m ∧
      call.outcome t = (.ok (some m), { t with messages := t.messages ++ [m] }) := by
  cases call with
  | columns names =>
    rw [outcome_columns]
    rcases h : t.declareColumns names with e | next
    · exact .inl ⟨e, rfl⟩
    · obtain ⟨hnone, hvalid, rfl⟩ := declareColumns_eq_ok.mp h
      exact .inr (.inl ⟨names, rfl, hnone, hvalid, rfl⟩)
  | row cells =>
    rw [outcome_row]
    rcases h : t.rowMessage cells with e | m
    · exact .inl ⟨e, rfl⟩
    · obtain ⟨columns, hcolumns, hdeclares⟩ := rowMessage_eq_ok.mp h
      exact .inr (.inr ⟨cells, columns, m, rfl, hcolumns, hdeclares, rfl⟩)

theorem columns_outcome {columns : List Column} (call : Call) (h : t.columns = some columns) :
    (call.outcome t).2.columns = some columns := by
  obtain ⟨e, hcall⟩ | ⟨_, -, hnone, -⟩ | ⟨_, _, m, -, -, -, hcall⟩ := outcome_cases call t
  · rw [hcall, h]
  · rw [hnone] at h
    cases h
  · rw [hcall]
    exact h

/-! ## The next call -/

/-- What one more call comes to, on a table that `rows` rows have been accepted for. -/
structure NextCall (t : Table) (rows : Nat) : Prop where
  apply_eq : ∀ call : Call, call.apply t = (call.outcome t).1.map fun _ => (call.outcome t).2
  unchanged : ∀ (call : Call) e next, call.outcome t = (.error e, next) → next = t
  columns_iff : ∀ names, (∃ next, (Call.columns names).outcome t = (.ok none, next)) ↔
    t.columns = none ∧ ValidColumns (names.map Column.ofName)
  row_iff : ∀ cells m, (∃ next, (Call.row cells).outcome t = (.ok (some m), next)) ↔
    ∃ columns, t.columns = some columns ∧ Declares columns cells m
  row_of_error : ∀ cells e next, (Call.row cells).outcome t = (.error e, next) →
    t.columns = none ∧ e = .columnsNotDeclared ∨ t.columns.isSome ∧ e.row? = some (rows + 1)

/-- A call appends a message, declares the columns, or changes nothing. -/
theorem nextCall (t : Table) : NextCall t t.messages.length where
  apply_eq call := Table.apply_eq call t
  unchanged call e next h := by
    obtain ⟨_, hcall⟩ | ⟨_, -, -, -, hcall⟩ | ⟨_, _, _, -, -, -, hcall⟩ := outcome_cases call t
    · rw [h] at hcall
      cases hcall
      rfl
    · rw [h] at hcall
      cases hcall
    · rw [h] at hcall
      cases hcall
  columns_iff names := by
    rw [outcome_columns]
    rcases h : t.declareColumns names with e | next
    · refine iff_of_false (by simp) ?_
      rintro ⟨hnone, hvalid⟩
      rw [declareColumns_eq_ok.mpr ⟨hnone, hvalid, rfl⟩] at h
      cases h
    · obtain ⟨hnone, hvalid, -⟩ := declareColumns_eq_ok.mp h
      exact iff_of_true ⟨next, rfl⟩ ⟨hnone, hvalid⟩
  row_iff cells m := by
    rw [outcome_row, ← rowMessage_eq_ok]
    rcases t.rowMessage cells with e | n <;> simp
  row_of_error cells e next h := by
    rw [outcome_row] at h
    rcases hrow : t.rowMessage cells with error | m
    · rw [hrow] at h
      cases h
      exact rowMessage_eq_error hrow
    · rw [hrow] at h
      cases h

/-! ## All calls -/

/-- The columns of the calls that declared columns, those refused left out. -/
def acceptedColumns (history : List (Call × Answer)) : List (List Column) :=
  history.filterMap fun
    | (.columns names, .ok _) => some (names.map Column.ofName)
    | _ => none

/-- The rows of the calls that declared a row and what they answered, those refused left out. -/
def acceptedRows (history : List (Call × Answer)) : List (List Cell × Option Message) :=
  history.filterMap fun
    | (.row cells, .ok answer) => some (cells, answer)
    | _ => none

/-- A message of a table with the columns, and the accepted row that it stems from. -/
structure AppendedBy (columns : Option (List Column)) (row : List Cell × Option Message)
    (m : Message) : Prop where
  answer_eq : row.2 = some m
  declares : ∃ c, columns = some c ∧ Declares c row.1 m
  name_ne_empty : m.name ≠ ""
  shortName_ne_empty : m.shortName ≠ ""

/-- What calls come to on a new table. -/
structure Accounted (calls : List Call) : Prop where
  calls_eq : (run calls).1.map (·.1) = calls
  columns_eq : (run calls).2.columns = (acceptedColumns (run calls).1).head?
  valid : ∀ columns, (run calls).2.columns = some columns → ValidColumns columns
  settled : ∀ later columns, (run calls).2.columns = some columns →
    (run (calls ++ later)).2.columns = some columns
  messages : List.Forall₂ (AppendedBy (run calls).2.columns) (acceptedRows (run calls).1)
    (run calls).2.messages
  concat : ∀ call, run (calls ++ [call]) =
    ((run calls).1 ++ [(call, (call.outcome (run calls).2).1)], (call.outcome (run calls).2).2)
  next : NextCall (run calls).2 (acceptedRows (run calls).1).length

theorem run_concat (calls : List Call) (call : Call) : run (calls ++ [call]) =
    ((run calls).1 ++ [(call, (call.outcome (run calls).2).1)],
      (call.outcome (run calls).2).2) := by
  simp only [run, makeAll, List.mapM_append]
  rfl

theorem columns_run_append {columns : List Column} (later : List Call)
    (h : (run calls).2.columns = some columns) :
    (run (calls ++ later)).2.columns = some columns := by
  induction later using List.reverseRecOn with
  | nil => rwa [List.append_nil]
  | append_singleton later call ih =>
    rw [← List.append_assoc, run_concat]
    exact columns_outcome call ih

theorem acceptedColumns_append (earlier later : List (Call × Answer)) :
    acceptedColumns (earlier ++ later) = acceptedColumns earlier ++ acceptedColumns later :=
  List.filterMap_append

theorem acceptedRows_append (earlier later : List (Call × Answer)) :
    acceptedRows (earlier ++ later) = acceptedRows earlier ++ acceptedRows later :=
  List.filterMap_append

/-- What the last of the calls adds: nothing, the columns, or a row with its message. -/
theorem run_concat_cases (calls : List Call) (call : Call) :
    ((run (calls ++ [call])).2 = (run calls).2 ∧
      acceptedColumns (run (calls ++ [call])).1 = acceptedColumns (run calls).1 ∧
      acceptedRows (run (calls ++ [call])).1 = acceptedRows (run calls).1) ∨
    (∃ columns, (run calls).2.columns = none ∧ ValidColumns columns ∧
      (run (calls ++ [call])).2 = { (run calls).2 with columns := some columns } ∧
      acceptedColumns (run (calls ++ [call])).1 = acceptedColumns (run calls).1 ++ [columns] ∧
      acceptedRows (run (calls ++ [call])).1 = acceptedRows (run calls).1) ∨
    ∃ columns cells m, (run calls).2.columns = some columns ∧ Declares columns cells m ∧
      (run (calls ++ [call])).2 =
        { (run calls).2 with messages := (run calls).2.messages ++ [m] } ∧
      acceptedColumns (run (calls ++ [call])).1 = acceptedColumns (run calls).1 ∧
      acceptedRows (run (calls ++ [call])).1 = acceptedRows (run calls).1 ++ [(cells, some m)] := by
  simp only [run_concat, acceptedColumns_append, acceptedRows_append]
  obtain ⟨e, hcall⟩ | ⟨names, rfl, hnone, hvalid, hcall⟩ |
    ⟨cells, columns, m, rfl, hcolumns, hdeclares, hcall⟩ := outcome_cases call (run calls).2
  · refine .inl ⟨by rw [hcall], ?_, ?_⟩ <;> rw [hcall] <;> cases call <;> exact List.append_nil _
  · refine .inr (.inl ⟨_, hnone, hvalid, ?_, ?_, ?_⟩) <;> rw [hcall]
    · rfl
    · exact List.append_nil _
  · refine .inr (.inr ⟨columns, cells, m, hcolumns, hdeclares, ?_, ?_, ?_⟩) <;> rw [hcall]
    · exact List.append_nil _
    · rfl

theorem calls_run (calls : List Call) : (run calls).1.map (·.1) = calls := by
  induction calls using List.reverseRecOn with
  | nil => rfl
  | append_singleton calls call ih =>
    rw [run_concat, List.map_append, ih]
    rfl

/-- The columns are those of the first call that declared any. -/
theorem columns_run (calls : List Call) :
    (run calls).2.columns = (acceptedColumns (run calls).1).head? := by
  induction calls using List.reverseRecOn with
  | nil => rfl
  | append_singleton calls call ih =>
    obtain ⟨ht, hcolumns, -⟩ | ⟨columns, hnone, -, ht, hcolumns, -⟩ |
      ⟨_, _, m, -, -, ht, hcolumns, -⟩ := run_concat_cases calls call
    · rw [ht, hcolumns, ih]
    · have hempty : acceptedColumns (run calls).1 = [] := by
        rwa [ih, List.head?_eq_none_iff] at hnone
      rw [ht, hcolumns, hempty]
      rfl
    · rw [ht, hcolumns, ← ih]

theorem valid_run (calls : List Call) :
    ∀ columns, (run calls).2.columns = some columns → ValidColumns columns := by
  induction calls using List.reverseRecOn with
  | nil => exact fun _ h => nomatch h
  | append_singleton calls call ih =>
    obtain ⟨ht, -⟩ | ⟨columns, -, hvalid, ht, -⟩ | ⟨_, _, m, -, -, ht, -⟩ :=
      run_concat_cases calls call
    · rwa [ht]
    · rw [ht]
      rintro _ ⟨⟩
      exact hvalid
    · rwa [ht]

/-- Every accepted row has appended one message. -/
theorem messages_run (calls : List Call) :
    List.Forall₂ (AppendedBy (run calls).2.columns) (acceptedRows (run calls).1)
      (run calls).2.messages := by
  induction calls using List.reverseRecOn with
  | nil => exact .nil
  | append_singleton calls call ih =>
    obtain ⟨ht, -, hrows⟩ | ⟨columns, hnone, -, ht, -, hrows⟩ |
      ⟨columns, cells, m, hcolumns, hdeclares, ht, -, hrows⟩ := run_concat_cases calls call
    · rwa [ht, hrows]
    · -- no row is accepted before there are columns
      rw [ht, hrows]
      refine ih.imp fun row m hrow => ?_
      obtain ⟨_, hsome, -⟩ := hrow.declares
      rw [hnone] at hsome
      cases hsome
    · rw [ht, hrows]
      have hvalid := valid_run calls columns hcolumns
      refine List.rel_append ih (.cons ?_ .nil)
      exact ⟨rfl, ⟨columns, hcolumns, hdeclares⟩, hdeclares.name_ne_empty hvalid,
        hdeclares.shortName_ne_empty hvalid⟩

/-- A table has the columns of the first call that could declare them and the messages of the
accepted rows in the order of the calls; a call that fails is as good as not made. -/
theorem accounted_run (calls : List Call) : Accounted calls where
  calls_eq := calls_run calls
  columns_eq := columns_run calls
  valid := valid_run calls
  settled := fun later _ => columns_run_append later
  messages := messages_run calls
  concat := run_concat calls
  next := (messages_run calls).length_eq ▸ nextCall _

example :
    (run [.row [.absent], .columns ["name", "short_name", "name"],
      .columns ["name", "short_name", "va_data"], .row [.text "PING", .text "ping"],
      .row [.text "PING", .text "ping", .text "char data"], .columns ["shortname", "name"],
      .row [.text "PONG", .text "pong", .absent]]).2.messages.map (·.name) = ["PONG"] :=
  rfl

end MessageSchema.Table
