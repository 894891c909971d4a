import MessageSchema.Column

/-!
# Names of columns

Names stand for the same column just if they are the same or one is the alias of the other
(`ofName_eq_iff`), and an extra column has its label for its only name (`eq_of_ofName_eq_extra`).
-/

namespace MessageSchema.Column

/-- The names of the columns that have two. -/
def aliases : List (String × String) :=
  [("value", "explicit_value"), ("desc", "description"), ("shortname", "short_name"),
    ("data_fields", "fixed_fields"), ("va_data", "variable_tail")]

/-- The same name, or an alias of it. -/
def Alias (a b : String) : Prop :=
  a = b ∨ (a, b) ∈ aliases ∨ (b, a) ∈ aliases

instance (a b : String) : Decidable (Alias a b) :=
  inferInstanceAs (Decidable (_ ∨ _))

/-- The names of a column. -/
def names : Column → List String
  | .name => ["name"]
  | .value => ["value", "explicit_value"]
  | .description => ["desc", "description"]
  | .shortName => ["shortname", "short_name"]
  | .fields => ["data_fields", "fixed_fields"]
  | .tail => ["va_data", "variable_tail"]
  | .extra label => [label]

variable {a b label : String}

/-- Every name is one of the names of the column that it stands for. -/
theorem mem_names_ofName (a : String) : a ∈ names (ofName a) := by
  unfold ofName
  split <;> simp [names]

/-- Names stand for the same column just if they are the same or aliases. -/
theorem ofName_eq_iff : ofName a = ofName b ↔ Alias a b := by
  constructor
  · intro h
    have ha := mem_names_ofName a
    have hb := mem_names_ofName b
    rw [← h] at hb
    generalize ofName a = column at ha hb
    cases column with
    | extra label =>
      obtain rfl := List.mem_singleton.mp ha
      exact .inl (List.mem_singleton.mp hb).symm
    | name | value | description | shortName | fields | tail =>
      simp only [names, List.mem_cons, List.not_mem_nil, or_false] at ha hb
      rcases ha with rfl | rfl <;> rcases hb with rfl | rfl <;> decide
  · have hall : ∀ pair ∈ aliases, ofName pair.1 = ofName pair.2 := by decide
    rintro (rfl | h | h)
    · rfl
    · exact hall _ h
    · exact (hall _ h).symm

/-- The label of an extra column is the name that it was read from. -/
theorem eq_of_ofName_eq_extra (h : ofName a = .extra label) : a = label := by
  have hmem := mem_names_ofName a
  rw [h] at hmem
  exact List.mem_singleton.mp hmem

theorem ofName_of_isExtra (h : (ofName a).isExtra = true) : ofName a = .extra a := by
  cases hcolumn : ofName a with
  | extra label => rw [eq_of_ofName_eq_extra hcolumn]
  | name | value | description | shortName | fields | tail =>
    rw [hcolumn] at h
    cases h

end MessageSchema.Column
