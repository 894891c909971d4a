import MessageSchema.Compile
import MessageSchema.Proofs.Except
import MessageSchema.Proofs.Settings.Keys

/-!
# Entries applied to settings

`Settings.setAll` applies entries in order. `AppliesInOrder s entries` says what that comes to: all
entries are applied if each of them fits, else the first that does not is reported; every setting is
then what the last entry with its key says (`SetBy`), so only the order among entries of one key
matters; and the names that follow from the root follow the last one (`NamedBy`). `LoadsInOrder`
says that a source is loaded with its options in front of the overrides. Main statement:
`appliesInOrder`.

- **Runs** (`setAll_eq_ok`, `setAll_eq_error`): by induction on the entries, with what one entry
  does from `Settings.set_eq_ok` and `Settings.set_eq_error`.
- **Sources** (`load_eq_ok`): a source is loaded by reading it, applying its options and the
  overrides, and resolving its messages. It is compiled by loading it and generating the units
  (`exists_generate_of_compile`).
- **In place** (`changeAll`): settings that are changed in place are left alone by an entry that is
  refused, and keep what the entries before it have changed.
-/

namespace MessageSchema

section Loading

variable {source sourceName : String} {overrides : List (String × Cell)} {loaded : LoadedSchema}

/-- Loading reads a source, applies its options and the overrides, and resolves its messages. -/
theorem load_eq_ok : load source overrides = .ok loaded ↔ ∃ parsed,
    Source.parse source = .ok parsed ∧ settingsOf parsed.options overrides = .ok loaded.settings ∧
      Protocol.resolve loaded.settings.policy parsed.messages = .ok loaded.protocol := by
  unfold load
  rw [bind_eq_ok]
  refine exists_congr fun parsed => and_congr mapError_eq_ok ?_
  rw [bind_eq_ok]
  constructor
  · rintro ⟨settings, hsettings, h⟩
    obtain ⟨protocol, hprotocol, h⟩ := bind_eq_ok.mp h
    cases h
    exact ⟨mapError_eq_ok.mp hsettings, mapError_eq_ok.mp hprotocol⟩
  · rintro ⟨hsettings, hprotocol⟩
    exact ⟨_, mapError_eq_ok.mpr hsettings, bind_eq_ok.mpr ⟨_, mapError_eq_ok.mpr hprotocol, rfl⟩⟩

theorem exists_generate_of_compile {units : List Output.OutputUnit}
    (h : compile source sourceName overrides = .ok units) :
    ∃ loaded, load source overrides = .ok loaded ∧
      Generated.generate loaded.settings loaded.protocol sourceName = .ok units := by
  obtain ⟨loaded, hload, hunits⟩ := bind_eq_ok.mp h
  exact ⟨loaded, mapError_eq_ok.mp hload, mapError_eq_ok.mp hunits⟩

end Loading

namespace Settings

variable {s t u : Settings} {entries others : List (String × Cell)} {key : String} {cell : Cell}

/-! ## The last entry of a key -/

/-- The cell of the last entry with a key. -/
def lastCell? (entries : List (String × Cell)) (key : String) : Option Cell :=
  (entries.filter (·.1 == key)).getLast?.map (·.2)

theorem lastCell?_append (entries others : List (String × Cell)) (key : String) :
    lastCell? (entries ++ others) key = (lastCell? others key).or (lastCell? entries key) := by
  unfold lastCell?
  rw [List.filter_append, List.getLast?_append, Option.map_or]

theorem lastCell?_cons (entry : String × Cell) (entries : List (String × Cell)) (key : String) :
    lastCell? (entry :: entries) key =
      (lastCell? entries key).or (if entry.1 = key then some entry.2 else none) := by
  rw [← List.singleton_append, lastCell?_append]
  congr 1
  by_cases h : entry.1 = key <;> simp [lastCell?, h]

/-- What settings are after entries: under each key what the cell of the last entry with that key
spells, and without one what they were. -/
structure SetBy (s : Settings) (entries : List (String × Cell)) (t : Settings) : Prop where
  last : ∀ (k : SettingKey) cell, lastCell? entries k.name = some cell →
    ∃ content, k.form.Spells cell content ∧ t.get? k = some content
  kept : ∀ k : SettingKey, lastCell? entries k.name = none → t.get? k = s.get? k

namespace SetBy

theorem nil (s : Settings) : SetBy s [] s where
  last _ _ h := nomatch h
  kept _ _ := rfl

/-- One more entry in front is overwritten by a later one of its key. -/
theorem cons {k : SettingKey} {content : k.form.Content} (hspells : k.form.Spells cell content)
    (h : SetBy (s.put k content) entries t) : SetBy s ((k.name, cell) :: entries) t where
  last j last hlast := by
    rw [lastCell?_cons, Option.or_eq_some_iff] at hlast
    -- the last entry of the key is a later one, or the first
    obtain hlater | ⟨hnone, hfirst⟩ := hlast
    · exact h.last j last hlater
    · by_cases hname : k.name = j.name
      · obtain rfl := SettingKey.name_inj.mp hname
        rw [if_pos rfl, Option.some.injEq] at hfirst
        subst hfirst
        exact ⟨content, hspells, (h.kept k hnone).trans (get?_put_self s k content)⟩
      · rw [if_neg hname] at hfirst
        cases hfirst
  kept j hnone := by
    rw [lastCell?_cons, Option.or_eq_none_iff] at hnone
    obtain ⟨hlater, hfirst⟩ := hnone
    have hne : j ≠ k := by
      rintro rfl
      rw [if_pos rfl] at hfirst
      cases hfirst
    exact (h.kept j hlater).trans (get?_put_of_ne hne content)

/-- Entries leave nothing open. -/
theorem unique (ht : SetBy s entries t) (hu : SetBy s entries u) : t = u := by
  apply eq_of_get?
  intro k
  rcases h : lastCell? entries k.name with _ | cell
  · rw [ht.kept k h, hu.kept k h]
  · obtain ⟨content, hcontent, hgett⟩ := ht.last k cell h
    obtain ⟨other, hother, hgetu⟩ := hu.last k cell h
    rw [hgett, hgetu, hcontent.unique hother]

end SetBy

/-! ## Applying entries -/

theorem setAll_cons_eq_ok {entry : String × Cell} :
    s.setAll (entry :: entries) = .ok t ↔
      ∃ u, s.set entry.1 entry.2 = .ok u ∧ u.setAll entries = .ok t :=
  bind_eq_ok

theorem setBy_of_setAll (h : s.setAll entries = .ok t) : SetBy s entries t := by
  induction entries generalizing s with
  | nil =>
    cases h
    exact .nil _
  | cons entry entries ih =>
    obtain ⟨u, hu, hrest⟩ := setAll_cons_eq_ok.mp h
    obtain ⟨k, content, hkey, hspells, rfl⟩ := set_eq_ok.mp hu
    have hentry : entry = (k.name, entry.2) := Prod.ext hkey.symm rfl
    rw [hentry]
    exact .cons hspells (ih hrest)

theorem exists_setAll (s : Settings) (entries : List (String × Cell)) :
    (∃ t, s.setAll entries = .ok t) ↔ ∀ entry ∈ entries, Fits entry := by
  induction entries generalizing s with
  | nil => simp [setAll, pure, Except.pure]
  | cons entry entries ih =>
    rw [List.forall_mem_cons, ← exists_set s entry]
    constructor
    · rintro ⟨t, h⟩
      obtain ⟨u, hu, h⟩ := setAll_cons_eq_ok.mp h
      exact ⟨⟨u, hu⟩, (ih u).mp ⟨t, h⟩⟩
    · rintro ⟨⟨u, hu⟩, hrest⟩
      obtain ⟨t, ht⟩ := (ih u).mpr hrest
      exact ⟨t, setAll_cons_eq_ok.mpr ⟨u, hu, ht⟩⟩

/-- Entries are applied just if each fits, and then the last one of each key holds. -/
theorem setAll_eq_ok :
    s.setAll entries = .ok t ↔ (∀ entry ∈ entries, Fits entry) ∧ SetBy s entries t := by
  constructor
  · intro h
    exact ⟨(exists_setAll s entries).mp ⟨t, h⟩, setBy_of_setAll h⟩
  · rintro ⟨hfits, hset⟩
    obtain ⟨u, hu⟩ := (exists_setAll s entries).mpr hfits
    rw [hu, hset.unique (setBy_of_setAll hu)]

/-- The error is that of the first entry that does not fit. -/
theorem setAll_eq_error {error : SettingError} :
    s.setAll entries = .error error ↔ ∃ before entry after, entries = before ++ entry :: after ∧
      (∀ e ∈ before, Fits e) ∧ Fault entry error := by
  simp only [setAll, foldlM_eq_error, set_eq_error]
  constructor
  · rintro ⟨before, entry, after, t, hsplit, ht, hfault⟩
    exact ⟨before, entry, after, hsplit, (exists_setAll s before).mp ⟨t, ht⟩, hfault⟩
  · rintro ⟨before, entry, after, hsplit, hfits, hfault⟩
    obtain ⟨t, ht⟩ := (exists_setAll s before).mpr hfits
    exact ⟨before, entry, after, t, hsplit, ht, hfault⟩

theorem setAll_append (s : Settings) (entries others : List (String × Cell)) :
    s.setAll (entries ++ others) = s.setAll entries >>= (setAll · others) :=
  List.foldlM_append

/-- Two lists have the same entries of each key in the same order. -/
def SameByKey (entries others : List (String × Cell)) : Prop :=
  ∀ key, entries.filter (·.1 == key) = others.filter (·.1 == key)

theorem SameByKey.lastCell? (h : SameByKey entries others) (key : String) :
    lastCell? entries key = lastCell? others key := by
  unfold Settings.lastCell?
  rw [h key]

theorem SameByKey.mem_iff (h : SameByKey entries others) (entry : String × Cell) :
    entry ∈ entries ↔ entry ∈ others := by
  have hfilter : entry ∈ entries.filter (·.1 == entry.1) ↔
      entry ∈ others.filter (·.1 == entry.1) := by
    rw [h entry.1]
  simpa using hfilter

theorem SameByKey.setBy (h : SameByKey entries others) (ht : SetBy s entries t) :
    SetBy s others t where
  last k cell hlast := ht.last k cell ((h.lastCell? k.name).trans hlast)
  kept k hnone := ht.kept k ((h.lastCell? k.name).trans hnone)

theorem SameByKey.symm (h : SameByKey entries others) : SameByKey others entries :=
  fun key => (h key).symm

/-- Only the order of the entries of one key matters. -/
theorem SameByKey.setAll_of_setAll (h : SameByKey entries others)
    (ht : s.setAll entries = .ok t) : s.setAll others = .ok t := by
  obtain ⟨hfits, hset⟩ := setAll_eq_ok.mp ht
  exact setAll_eq_ok.mpr ⟨fun entry hmem => hfits entry ((h.mem_iff entry).mpr hmem), h.setBy hset⟩

/-! ## Settings in place -/

/-- An operation on settings in place: it may change some of them and then fail. -/
abbrev InPlace :=
  ExceptT SettingError (StateM Settings) Unit

/-- The result of an operation on settings, and what they are then. -/
def InPlace.outcome (operation : InPlace) (s : Settings) : Except SettingError Unit × Settings :=
  operation.run.run s

/-- Changes the setting of a key in place. -/
def change (key : String) (cell : Cell) : InPlace :=
  match SettingKey.ofName? key with
  | none => throw (.unknownKey key)
  | some k => do
    let content ← ofExcept (read key k.form (k.form.read? cell))
    modify (·.put k content)

/-- Changes settings in place, one entry after the other. -/
def changeAll (entries : List (String × Cell)) : InPlace :=
  entries.forM fun (key, cell) => change key cell

theorem outcome_change (key : String) (cell : Cell) (s : Settings) :
    (change key cell).outcome s = match s.set key cell with
      | .ok t => (.ok (), t)
      | .error error => (.error error, s) := by
  unfold change
  split
  · rename_i hkey
    rw [set_of_unknown s (SettingKey.ofName?_eq_none.mp hkey)]
    rfl
  · rename_i k hkey
    obtain rfl := SettingKey.ofName?_eq_some.mp hkey
    rw [InPlace.outcome, run_run_bind, run_run_ofExcept, set_name]
    rcases read k.name k.form (k.form.read? cell) with error | content <;> rfl

/-- An entry that is refused changes nothing. -/
theorem eq_of_change_error {error : SettingError}
    (h : (change key cell).outcome s = (.error error, t)) : t = s := by
  rw [outcome_change] at h
  split at h
  · cases h
  · cases h
    rfl

theorem outcome_changeAll_cons (entry : String × Cell) (entries : List (String × Cell))
    (s : Settings) :
    (changeAll (entry :: entries)).outcome s = match s.set entry.1 entry.2 with
      | .ok t => (changeAll entries).outcome t
      | .error error => (.error error, s) := by
  have hstep := outcome_change entry.1 entry.2 s
  unfold InPlace.outcome at hstep ⊢
  show (change entry.1 entry.2 >>= fun _ => changeAll entries).run.run s = _
  rw [run_run_bind, hstep]
  rcases s.set entry.1 entry.2 with error | t <;> rfl

theorem outcome_changeAll_of_setAll (h : s.setAll entries = .ok t) :
    (changeAll entries).outcome s = (.ok (), t) := by
  induction entries generalizing s with
  | nil =>
    cases h
    rfl
  | cons entry entries ih =>
    obtain ⟨u, hu, h⟩ := setAll_cons_eq_ok.mp h
    rw [outcome_changeAll_cons, hu]
    exact ih h

/-- An entry that is refused leaves what the entries in front of it have changed. -/
theorem outcome_changeAll_of_fault {entry : String × Cell} {error : SettingError}
    (h : s.setAll entries = .ok t) (hfault : Fault entry error) (after : List (String × Cell)) :
    (changeAll (entries ++ entry :: after)).outcome s = (.error error, t) := by
  induction entries generalizing s with
  | nil =>
    cases h
    rw [List.nil_append, outcome_changeAll_cons, set_of_fault hfault]
  | cons first entries ih =>
    obtain ⟨u, hu, h⟩ := setAll_cons_eq_ok.mp h
    rw [List.cons_append, outcome_changeAll_cons, hu]
    exact ih h

/-! ## Names that follow from the root -/

/-- The text under a key, if it is one that has a text. -/
def text? (s : Settings) (k : SettingKey) : Option String :=
  (s.get? k).bind k.form.text?

/-- The text of the last entry with a key. -/
def lastText? (entries : List (String × Cell)) (key : String) : Option String :=
  (lastCell? entries key).bind Cell.text?

/-- The text under a key is that of the last entry, if there is one. -/
theorem SetBy.text?_eq (h : SetBy s entries t) {k : SettingKey} (hform : k.form = .text) :
    t.text? k = (lastText? entries k.name).or (s.text? k) := by
  unfold text? lastText?
  rcases hlast : lastCell? entries k.name with _ | cell
  · rw [h.kept k hlast]
    rfl
  · obtain ⟨content, hspells, hget⟩ := h.last k cell hlast
    obtain ⟨text, hcontent, hcell⟩ := SettingForm.text?_of_spells hform hspells
    rw [hget, Option.bind_some, Option.bind_some, hcontent, hcell]
    rfl

/-- A name that follows from the root of all symbols unless it is set on its own. -/
structure DerivedName where
  key : SettingKey
  isText : key.form = .text := by rfl
  ofRoot : String → String
  ofSettings : Settings → String

/-- What the name of every discriminant constant begins with. -/
def derivedConstantRoot : DerivedName where
  key := .constantRoot
  ofRoot root := Text.upperAscii root ++ "_"
  ofSettings := constantRoot

/-- All names that follow from the root. -/
def derivedNames : List DerivedName :=
  [derivedConstantRoot,
    { key := .typeName, ofRoot := (· ++ "_type"), ofSettings := typeName },
    { key := .envelopeName, ofRoot := id, ofSettings := envelopeName },
    { key := .headerName, ofRoot := (· ++ "_type.h"), ofSettings := headerName },
    { key := .sourceName, ofRoot := (· ++ "_type.c"), ofSettings := sourceName }]

/-- A derived name is the one that is set, or follows from the root. -/
theorem DerivedName.ofSettings_eq {d : DerivedName} (hd : d ∈ derivedNames) (s : Settings) :
    d.ofSettings s = (s.text? d.key).getD (d.ofRoot s.root) := by
  simp only [derivedNames, List.mem_cons, List.not_mem_nil, or_false] at hd
  have hown (own : Option String) (text : String) : own.getD text = (own.bind some).getD text := by
    rw [Option.bind_fun_some]
  rcases hd with rfl | rfl | rfl | rfl | rfl
  · exact hown s.constantRoot? _
  · exact hown s.typeName? _
  · exact hown s.envelopeName? _
  · exact hown s.headerName? _
  · exact hown s.sourceName? _

/-- The root of all symbols after entries. -/
def rootAfter (s : Settings) (entries : List (String × Cell)) : String :=
  (lastText? entries SettingKey.root.name).getD s.root

/-- A derived name after entries: as it was set last, else from the root. -/
def nameAfter (s : Settings) (entries : List (String × Cell)) (d : DerivedName) : String :=
  ((lastText? entries d.key.name).or (s.text? d.key)).getD (d.ofRoot (s.rootAfter entries))

/-- The names of settings after entries, also those of messages. -/
structure NamedBy (s : Settings) (entries : List (String × Cell)) (t : Settings) : Prop where
  root : t.root = s.rootAfter entries
  derived : ∀ d ∈ derivedNames, d.ofSettings t = s.nameAfter entries d
  record : ∀ shortName, t.recordName shortName = s.rootAfter entries ++ "_" ++ shortName
  tag : ∀ name, t.tagConstant name = s.nameAfter entries derivedConstantRoot ++ name

theorem SetBy.root_eq (h : SetBy s entries t) : t.root = s.rootAfter entries := by
  have hroot : some t.root = (lastText? entries SettingKey.root.name).or (some s.root) :=
    h.text?_eq (k := .root) rfl
  unfold rootAfter
  cases hlast : lastText? entries SettingKey.root.name <;> simp_all

theorem SetBy.ofSettings_eq (h : SetBy s entries t) {d : DerivedName} (hd : d ∈ derivedNames) :
    d.ofSettings t = s.nameAfter entries d := by
  rw [d.ofSettings_eq hd, h.text?_eq d.isText, h.root_eq]
  rfl

/-- After the entries, all derived names follow from them. -/
theorem SetBy.namedBy (h : SetBy s entries t) : NamedBy s entries t where
  root := h.root_eq
  derived _ hd := h.ofSettings_eq hd
  record shortName := by rw [recordName, h.root_eq]
  tag name := by
    have hroot : t.constantRoot = s.nameAfter entries derivedConstantRoot :=
      h.ofSettings_eq List.mem_cons_self
    rw [tagConstant, hroot]

/-- Options and overrides are applied to the defaults, the overrides last. -/
theorem settingsOf_eq (options overrides : List (String × Cell)) :
    settingsOf options overrides = ({} : Settings).setAll (options ++ overrides) :=
  (setAll_append {} options overrides).symm

theorem setAll_of_load {source : String} {loaded : LoadedSchema} {parsed : Source.SchemaSource}
    {overrides : List (String × Cell)} (hparse : Source.parse source = .ok parsed)
    (h : load source overrides = .ok loaded) :
    ({} : Settings).setAll (parsed.options ++ overrides) = .ok loaded.settings := by
  obtain ⟨other, hother, hsettings, -⟩ := load_eq_ok.mp h
  cases hparse.symm.trans hother
  rwa [← settingsOf_eq]

theorem exists_parse_of_load {source : String} {loaded : LoadedSchema}
    {overrides : List (String × Cell)} (h : load source overrides = .ok loaded) :
    ∃ parsed, Source.parse source = .ok parsed := by
  obtain ⟨parsed, hparse, -⟩ := load_eq_ok.mp h
  exact ⟨parsed, hparse⟩

/-- What entries say about a key they say behind any others, too. -/
theorem SetBy.last_of_append (h : SetBy s (others ++ entries) t) (k : SettingKey)
    (hlast : lastCell? entries k.name = some cell) :
    ∃ content, k.form.Spells cell content ∧ t.get? k = some content := by
  refine h.last k cell ?_
  rw [lastCell?_append, hlast, Option.some_or]

/-- What it comes to when entries are applied in order. -/
structure AppliesInOrder (s : Settings) (entries : List (String × Cell)) : Prop where
  one : ∀ key cell error, s.set key cell = .error error ↔ Fault (key, cell) error
  unchanged : ∀ key cell error after, (change key cell).outcome s = (.error error, after) →
    after = s
  accepted : (∃ t, s.setAll entries = .ok t) ↔ ∀ entry ∈ entries, Fits entry
  refused : ∀ error, s.setAll entries = .error error ↔
    ∃ before entry after, entries = before ++ entry :: after ∧ (∀ e ∈ before, Fits e) ∧
      Fault entry error
  inPlace : ∀ t, s.setAll entries = .ok t → (changeAll entries).outcome s = (.ok (), t)
  inPlace_refused : ∀ before entry after error t, entries = before ++ entry :: after →
    s.setAll before = .ok t → Fault entry error →
    (changeAll entries).outcome s = (.error error, t)
  setBy : ∀ t, s.setAll entries = .ok t → SetBy s entries t
  unique : ∀ t u, SetBy s entries t → SetBy s entries u → t = u
  reordered : ∀ others, SameByKey entries others →
    ∀ t, s.setAll others = .ok t ↔ s.setAll entries = .ok t
  named : ∀ t, s.setAll entries = .ok t → NamedBy s entries t

/-- A source is loaded with its options in front of the overrides. -/
structure LoadsInOrder (source : String) (overrides : List (String × Cell)) : Prop where
  load_eq : load source overrides = do
    let parsed ← (Source.parse source).mapError .source
    let settings ← (({} : Settings).setAll (parsed.options ++ overrides)).mapError .setting
    let protocol ← (Protocol.resolve settings.policy parsed.messages).mapError .resolve
    return ⟨protocol, settings⟩
  setBy : ∀ parsed loaded, Source.parse source = .ok parsed → load source overrides = .ok loaded →
    SetBy {} (parsed.options ++ overrides) loaded.settings
  beats : ∀ loaded, load source overrides = .ok loaded →
    ∀ (k : SettingKey) cell, lastCell? overrides k.name = some cell →
      ∃ content, k.form.Spells cell content ∧ loaded.settings.get? k = some content

/-- Of entries with one key the last wins, entries with other keys do not matter to it, and a source
is loaded with its options first and the overrides behind them. -/
theorem appliesInOrder (s : Settings) (entries : List (String × Cell)) (source : String)
    (overrides : List (String × Cell)) :
    AppliesInOrder s entries ∧ LoadsInOrder source overrides := by
  constructor
  · exact {
      one := fun _ _ _ => set_eq_error
      unchanged := fun _ _ _ _ => eq_of_change_error
      accepted := exists_setAll s entries
      refused := fun _ => setAll_eq_error
      inPlace := fun _ => outcome_changeAll_of_setAll
      inPlace_refused := by
        rintro before entry after error t rfl hbefore hfault
        exact outcome_changeAll_of_fault hbefore hfault after
      setBy := fun _ => setBy_of_setAll
      unique := fun _ _ => SetBy.unique
      reordered := fun _ hsame _ => ⟨hsame.symm.setAll_of_setAll, hsame.setAll_of_setAll⟩
      named := fun _ h => (setBy_of_setAll h).namedBy }
  · have hset {parsed loaded} (hparse : Source.parse source = .ok parsed)
        (h : load source overrides = .ok loaded) :
        SetBy {} (parsed.options ++ overrides) loaded.settings :=
      setBy_of_setAll (setAll_of_load hparse h)
    refine ⟨?_, fun _ _ => hset, fun loaded h k cell hlast => ?_⟩
    · simp only [load, settingsOf_eq]
    · obtain ⟨parsed, hparse⟩ := exists_parse_of_load h
      exact (hset hparse h).last_of_append k hlast

example :
    (({} : Settings).setAll [("type_name", .text "kind"), ("prefix", .text "a"),
      ("size_field", .text "legacy"), ("prefix", .text "rpc")]).map
        (fun s => (s.typeName, s.envelopeName, s.tagConstant "PING", s.sizeMeaning)) =
      .ok ("kind", "rpc", "RPC_PING", .legacy) :=
  rfl

end Settings

end MessageSchema
