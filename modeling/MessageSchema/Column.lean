/-!
# Columns of a schema table

A column is one of the six that the schema gives a meaning to, each under one or two names, or an
extra one that is kept as it is.
-/

namespace MessageSchema

/-- What a column of a table holds. -/
inductive Column where
  | name
  | value
  | description
  | shortName
  | fields
  | tail
  | extra (label : String)
deriving DecidableEq, Repr

namespace Column

/-- The column that a name stands for. -/
def ofName (name : String) : Column :=
  match name with
  | "name" => .name
  | "value" | "explicit_value" => .value
  | "desc" | "description" => .description
  | "shortname" | "short_name" => .shortName
  | "data_fields" | "fixed_fields" => .fields
  | "va_data" | "variable_tail" => .tail
  | other => .extra other

/-- The name a column is reported under. -/
def canonicalName : Column → String
  | .name => "name"
  | .value => "value"
  | .description => "desc"
  | .shortName => "shortname"
  | .fields => "data_fields"
  | .tail => "va_data"
  | .extra label => label

/-- Whether the schema gives the column no meaning. -/
def isExtra : Column → Bool
  | .extra _ => true
  | _ => false

end Column

end MessageSchema
