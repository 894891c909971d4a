import MessageSchema.Proofs.Except
import MessageSchema.Settings

/-!
# Settings by their keys

Every setting has a key, and every key a form that says what its cell must be. A cell that
`Spells` a content of that form is one that the setting takes.

- **Keys** (`SettingKey`): `Settings.get?` and `Settings.put` are one setting read and written; what
  is written is read (`get?_put_self`), no other setting has changed (`get?_put_of_ne`), and
  settings that read alike are the same (`eq_of_get?`).
- **One entry** (`set_eq_ok`, `set_eq_error`): `Settings.set` writes the content that the cell
  spells under the key, or reports the fault of the entry, whatever the settings are.
-/

namespace MessageSchema

/-! ## Forms -/

/-- What a setting of a form has. -/
abbrev SettingForm.Content : SettingForm → Type
  | .text => String
  | .bool => Bool
  | .texts => List String
  | .emission => Emission
  | .sizeMeaning => SizeMeaning
  | .policy => DiscriminantPolicy

/-- The word for an emission. -/
def Emission.word : Emission → String
  | .inHeader => "inline"
  | .split => "split"

/-- The word for a meaning. -/
def SizeMeaning.word : SizeMeaning → String
  | .bytes => "bytes"
  | .legacy => "legacy"

/-- The word for a policy. -/
def DiscriminantPolicy.word : DiscriminantPolicy → String
  | .unique => "unique"
  | .permissive => "permissive"

theorem Emission.ofWord?_eq_some {word : String} {e : Emission} :
    ofWord? word = some e ↔ word = e.word := by
  unfold ofWord?
  split <;> cases e <;> simp_all [Emission.word]

theorem SizeMeaning.ofWord?_eq_some {word : String} {m : SizeMeaning} :
    ofWord? word = some m ↔ word = m.word := by
  unfold ofWord?
  split <;> cases m <;> simp_all [SizeMeaning.word]

theorem DiscriminantPolicy.ofWord?_eq_some {word : String} {p : DiscriminantPolicy} :
    ofWord? word = some p ↔ word = p.word := by
  unfold ofWord?
  split <;> cases p <;> simp_all [DiscriminantPolicy.word]

namespace Cell

theorem text?_eq_some {cell : Cell} {s : String} : cell.text? = some s ↔ cell = .text s := by
  cases cell <;> simp [text?]

theorem bool?_eq_some {cell : Cell} {b : Bool} : cell.bool? = some b ↔ cell = .bool b := by
  cases cell <;> simp [bool?]

theorem mapM_text?_eq_some {items : List Cell} {texts : List String} :
    items.mapM text? = some texts ↔ items = texts.map .text := by
  induction items generalizing texts with
  | nil => cases texts <;> simp
  | cons cell items ih =>
    cases texts with
    | nil => simp [Option.bind_eq_some_iff]
    | cons s texts => simp [Option.bind_eq_some_iff, text?_eq_some, ih]

theorem texts?_eq_some {cell : Cell} {texts : List String} :
    cell.texts? = some texts ↔
      cell = .list (texts.map .text) ∨ cell = .tuple (texts.map .text) := by
  cases cell <;> simp [texts?, items?, mapM_text?_eq_some]

end Cell

namespace SettingForm

/-- The cells that stand for a content. -/
def Spells : (form : SettingForm) → Cell → form.Content → Prop
  | .text, cell, s => cell = .text s
  | .bool, cell, b => cell = .bool b
  | .texts, cell, items => cell = .list (items.map .text) ∨ cell = .tuple (items.map .text)
  | .emission, cell, e => cell = .text e.word
  | .sizeMeaning, cell, m => cell = .text m.word
  | .policy, cell, p => cell = .text p.word

/-- The content that a cell stands for. -/
def read? : (form : SettingForm) → Cell → Option form.Content
  | .text, cell => cell.text?
  | .bool, cell => cell.bool?
  | .texts, cell => cell.texts?
  | .emission, cell => cell.text?.bind Emission.ofWord?
  | .sizeMeaning, cell => cell.text?.bind SizeMeaning.ofWord?
  | .policy, cell => cell.text?.bind DiscriminantPolicy.ofWord?

/-- A form reads the cells that spell a content of it. -/
theorem read?_eq_some {form : SettingForm} {cell : Cell} {content : form.Content} :
    form.read? cell = some content ↔ form.Spells cell content := by
  cases form with
  | text => exact Cell.text?_eq_some
  | bool => exact Cell.bool?_eq_some
  | texts => exact Cell.texts?_eq_some
  | emission =>
    simp [read?, Spells, Option.bind_eq_some_iff, Cell.text?_eq_some, Emission.ofWord?_eq_some]
  | sizeMeaning =>
    simp [read?, Spells, Option.bind_eq_some_iff, Cell.text?_eq_some, SizeMeaning.ofWord?_eq_some]
  | policy =>
    simp [read?, Spells, Option.bind_eq_some_iff, Cell.text?_eq_some,
      DiscriminantPolicy.ofWord?_eq_some]

theorem read?_eq_none {form : SettingForm} {cell : Cell} :
    form.read? cell = none ↔ ∀ content, ¬ form.Spells cell content := by
  simp only [Option.eq_none_iff_forall_ne_some, ne_eq, read?_eq_some]

/-- The content of a text. -/
def text? : (form : SettingForm) → form.Content → Option String
  | .text, s => some s
  | _, _ => none

theorem text?_of_spells {form : SettingForm} {cell : Cell} {content : form.Content}
    (hform : form = .text) (h : form.Spells cell content) :
    ∃ s, form.text? content = some s ∧ cell.text? = some s := by
  subst hform
  exact ⟨content, rfl, Cell.text?_eq_some.mpr h⟩

/-- A cell stands for one content. -/
theorem Spells.unique {form : SettingForm} {cell : Cell} {c d : form.Content}
    (hc : form.Spells cell c) (hd : form.Spells cell d) : c = d :=
  Option.some.inj ((read?_eq_some.mpr hc).symm.trans (read?_eq_some.mpr hd))

end SettingForm

/-! ## Keys -/

/-- The settings that there are. -/
inductive SettingKey where
  | root
  | constantRoot
  | typeName
  | envelopeName
  | headerName
  | sourceName
  | resultType
  | okCode
  | constructFailed
  | allocatorType
  | allocFunction
  | indent
  | inlineSpecifiers
  | layoutAsserts
  | includes
  | emission
  | sizeMeaning
  | policy
deriving DecidableEq, Repr

namespace SettingKey

/-- How a key is spelled. -/
def name : SettingKey → String
  | root => "prefix"
  | constantRoot => "enum_prefix"
  | typeName => "type_name"
  | envelopeName => "envelope_name"
  | headerName => "header_name"
  | sourceName => "source_name"
  | resultType => "result_type"
  | okCode => "ok_code"
  | constructFailed => "construct_failed"
  | allocatorType => "allocator_type"
  | allocFunction => "alloc_fn"
  | indent => "indent"
  | inlineSpecifiers => "inline_attr"
  | layoutAsserts => "layout_asserts"
  | includes => "include"
  | emission => "emit_mode"
  | sizeMeaning => "size_field"
  | policy => "discriminants"

/-- The form of the setting of a key. -/
def form : SettingKey → SettingForm
  | layoutAsserts => .bool
  | includes => .texts
  | emission => .emission
  | sizeMeaning => .sizeMeaning
  | policy => .policy
  | _ => .text

/-- All keys. -/
def all : List SettingKey :=
  [root, constantRoot, typeName, envelopeName, headerName, sourceName, resultType, okCode,
    constructFailed, allocatorType, allocFunction, indent, inlineSpecifiers, layoutAsserts,
    includes, emission, sizeMeaning, policy]

/-- The key that is spelled so. -/
def ofName? (name : String) : Option SettingKey :=
  all.find? (·.name == name)

theorem ofName?_name (k : SettingKey) : ofName? k.name = some k := by
  cases k <;> rfl

/-- A key is found by its name alone. -/
theorem ofName?_eq_some {name : String} {k : SettingKey} :
    ofName? name = some k ↔ k.name = name := by
  constructor
  · intro h
    simpa using List.find?_some h
  · rintro rfl
    exact ofName?_name k

theorem ofName?_eq_none {name : String} :
    ofName? name = none ↔ ∀ k : SettingKey, k.name ≠ name := by
  simp only [Option.eq_none_iff_forall_ne_some, ne_eq, ofName?_eq_some]

theorem name_inj {k j : SettingKey} : k.name = j.name ↔ k = j := by
  rw [← ofName?_eq_some, ofName?_name, Option.some.injEq, eq_comm]

end SettingKey

namespace Settings

/-- The setting of a key; a name that is not set on its own has none. -/
def get? (s : Settings) : (k : SettingKey) → Option k.form.Content
  | .root => some s.root
  | .constantRoot => s.constantRoot?
  | .typeName => s.typeName?
  | .envelopeName => s.envelopeName?
  | .headerName => s.headerName?
  | .sourceName => s.sourceName?
  | .resultType => some s.resultType
  | .okCode => some s.okCode
  | .constructFailed => some s.constructFailed
  | .allocatorType => some s.allocatorType
  | .allocFunction => some s.allocFunction
  | .indent => some s.indent
  | .inlineSpecifiers => some s.inlineSpecifiers
  | .layoutAsserts => some s.layoutAsserts
  | .includes => some s.includes
  | .emission => some s.emission
  | .sizeMeaning => some s.sizeMeaning
  | .policy => some s.policy

/-- The settings with another content under a key. -/
def put (s : Settings) : (k : SettingKey) → k.form.Content → Settings
  | .root, text => { s with root := text }
  | .constantRoot, text => { s with constantRoot? := some text }
  | .typeName, text => { s with typeName? := some text }
  | .envelopeName, text => { s with envelopeName? := some text }
  | .headerName, text => { s with headerName? := some text }
  | .sourceName, text => { s with sourceName? := some text }
  | .resultType, text => { s with resultType := text }
  | .okCode, text => { s with okCode := text }
  | .constructFailed, text => { s with constructFailed := text }
  | .allocatorType, text => { s with allocatorType := text }
  | .allocFunction, text => { s with allocFunction := text }
  | .indent, text => { s with indent := text }
  | .inlineSpecifiers, text => { s with inlineSpecifiers := text }
  | .layoutAsserts, flag => { s with layoutAsserts := flag }
  | .includes, texts => { s with includes := texts }
  | .emission, emission => { s with emission }
  | .sizeMeaning, sizeMeaning => { s with sizeMeaning }
  | .policy, policy => { s with policy }

variable {s t : Settings} {k j : SettingKey} {key : String} {cell : Cell}

@[simp] theorem get?_put_self (s : Settings) (k : SettingKey) (content : k.form.Content) :
    (s.put k content).get? k = some content := by
  cases k <;> rfl

/-- Putting one setting leaves the others. -/
theorem get?_put_of_ne (h : j ≠ k) (content : k.form.Content) :
    (s.put k content).get? j = s.get? j := by
  cases k <;> cases j <;> first | rfl | exact absurd rfl h

/-- Settings are what they have under all keys. -/
theorem eq_of_get? (h : ∀ k, s.get? k = t.get? k) : s = t := by
  cases s
  cases t
  simp only [mk.injEq]
  exact ⟨Option.some.inj (h .root), h .constantRoot, h .typeName, h .envelopeName, h .headerName,
    h .sourceName, Option.some.inj (h .resultType), Option.some.inj (h .okCode),
    Option.some.inj (h .constructFailed), Option.some.inj (h .allocatorType),
    Option.some.inj (h .allocFunction), Option.some.inj (h .includes), Option.some.inj (h .indent),
    Option.some.inj (h .inlineSpecifiers), Option.some.inj (h .emission),
    Option.some.inj (h .sizeMeaning), Option.some.inj (h .policy),
    Option.some.inj (h .layoutAsserts)⟩

/-! ## One entry -/

theorem set_name (s : Settings) (k : SettingKey) (cell : Cell) :
    s.set k.name cell = (read k.name k.form (k.form.read? cell)).map (s.put k) := by
  cases k <;> rfl

theorem set_of_unknown (s : Settings) (h : ∀ k : SettingKey, k.name ≠ key) (cell : Cell) :
    s.set key cell = .error (.unknownKey key) := by
  unfold set
  split
  exacts [absurd rfl (h .root), absurd rfl (h .constantRoot), absurd rfl (h .typeName),
    absurd rfl (h .envelopeName), absurd rfl (h .headerName), absurd rfl (h .sourceName),
    absurd rfl (h .resultType), absurd rfl (h .okCode), absurd rfl (h .constructFailed),
    absurd rfl (h .allocatorType), absurd rfl (h .allocFunction), absurd rfl (h .indent),
    absurd rfl (h .inlineSpecifiers), absurd rfl (h .layoutAsserts), absurd rfl (h .includes),
    absurd rfl (h .emission), absurd rfl (h .sizeMeaning), absurd rfl (h .policy), rfl]

/-- An entry that can be applied: its key is one of a setting, and its cell stands for a content. -/
def Fits (entry : String × Cell) : Prop :=
  ∃ k : SettingKey, k.name = entry.1 ∧ ∃ content, k.form.Spells entry.2 content

/-- What is wrong with an entry. -/
inductive Fault : String × Cell → SettingError → Prop
  | unknownKey (key : String) (cell : Cell) (h : ∀ k : SettingKey, k.name ≠ key) :
    Fault (key, cell) (.unknownKey key)
  | invalidCell (k : SettingKey) (cell : Cell) (h : ∀ content, ¬ k.form.Spells cell content) :
    Fault (k.name, cell) (.invalidCell k.name k.form)

theorem set_of_spells {content : k.form.Content} (h : k.form.Spells cell content) (s : Settings) :
    s.set k.name cell = .ok (s.put k content) := by
  rw [set_name, SettingForm.read?_eq_some.mpr h]
  rfl

/-- An entry with a fault is refused for it. -/
theorem set_of_fault {entry : String × Cell} {error : SettingError} (h : Fault entry error)
    (s : Settings) : s.set entry.1 entry.2 = .error error := by
  cases h with
  | unknownKey key cell h => exact set_of_unknown s h cell
  | invalidCell k cell h =>
    rw [set_name, SettingForm.read?_eq_none.mpr h]
    rfl

/-- An entry fits or has a fault. -/
theorem fits_or_fault (entry : String × Cell) : Fits entry ∨ ∃ error, Fault entry error := by
  obtain ⟨key, cell⟩ := entry
  by_cases hkey : ∃ k : SettingKey, k.name = key
  · obtain ⟨k, rfl⟩ := hkey
    by_cases hcell : ∃ content, k.form.Spells cell content
    · exact .inl ⟨k, rfl, hcell⟩
    · exact .inr ⟨_, .invalidCell k cell (not_exists.mp hcell)⟩
  · exact .inr ⟨_, .unknownKey key cell (not_exists.mp hkey)⟩

/-- All that an entry can do is to put what its cell spells under its key. -/
theorem set_eq_ok :
    s.set key cell = .ok t ↔
      ∃ k content, k.name = key ∧ k.form.Spells cell content ∧ s.put k content = t := by
  constructor
  · intro h
    obtain ⟨k, rfl, content, hspells⟩ | ⟨error, hfault⟩ := fits_or_fault (key, cell)
    · rw [set_of_spells hspells] at h
      exact ⟨k, content, rfl, hspells, Except.ok.inj h⟩
    · rw [set_of_fault hfault] at h
      cases h
  · rintro ⟨k, content, rfl, hspells, rfl⟩
    exact set_of_spells hspells s

/-- Whether an entry is refused, and why, does not depend on the settings. -/
theorem set_eq_error {error : SettingError} :
    s.set key cell = .error error ↔ Fault (key, cell) error := by
  constructor
  · intro h
    obtain ⟨k, rfl, content, hspells⟩ | ⟨_, hfault⟩ := fits_or_fault (key, cell)
    · rw [set_of_spells hspells] at h
      cases h
    · rw [set_of_fault hfault] at h
      cases h
      exact hfault
  · exact fun hfault => set_of_fault hfault s

theorem exists_set (s : Settings) (entry : String × Cell) :
    (∃ t, s.set entry.1 entry.2 = .ok t) ↔ Fits entry := by
  simp only [set_eq_ok, Fits]
  constructor
  · rintro ⟨_, k, content, hkey, hspells, -⟩
    exact ⟨k, hkey, content, hspells⟩
  · rintro ⟨k, hkey, content, hspells⟩
    exact ⟨_, k, content, hkey, hspells, rfl⟩

end Settings

end MessageSchema
