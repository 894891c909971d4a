import MessageSchema.Proofs.Except
import MessageSchema.Proofs.Source.Complete
import MessageSchema.Proofs.Source.Content

/-!
# Every well-formed source means what it says

Main statement: `parse_of_rendering`.

- **Literals** (`literalValue_of_spellsInteger`, `unescape_of_spellsText`): a literal has the value
  that it spells.
- **Evaluation** (`Answers`): outcomes that answer each other do so after a further step
  (`Answers.bind`), so cells (`answers_cell`), sections and documents (`answers_evaluate`) are
  evaluated alike.
- **Independence** (`evaluate_of_sameClauses`): options and tables do not affect each other.
- **An example** (`parse_sample`): a schema in two sources that differ in all of this.
-/

namespace MessageSchema.Source

open Text

variable {s : List Char}

/-! ## Literals -/

theorem digitValue_of_isDigit {d : Nat} {c : Char} (h : IsDigit d c) (hd : d < 16) :
    digitValue c = d := by
  rcases h with rfl | rfl
  · have hlower : ∀ d < 16, digitValue (Nat.digitChar d) = d := by decide
    exact hlower d hd
  · have hupper : ∀ d < 16, digitValue (Nat.digitChar d).toUpper = d := by decide
    exact hupper d hd

theorem digitsValue_concat (base : Nat) (s : List Char) (c : Char) :
    digitsValue base (s ++ [c]) = digitsValue base s * base + digitValue c := by
  simp [digitsValue]

theorem digitsValue_of_numeral {base n : Nat} (h : Numeral base s n) (hbase : base ≤ 16) :
    digitsValue base s = n := by
  induction h with
  | digit hd hc => simpa [digitsValue] using digitValue_of_isDigit hc (by omega)
  | snoc _ hd hc ih => rw [digitsValue_concat, ih, digitValue_of_isDigit hc (by omega)]

/-- The base of a magnitude, and its digits. -/
def splitMark : List Char → Nat × List Char
  | '0' :: 'x' :: digits => (16, digits)
  | '0' :: 'X' :: digits => (16, digits)
  | digits => (10, digits)

theorem splitMark_of_spellsNumber {n : Nat} (h : SpellsNumber s n) :
    ∃ base digits, splitMark s = (base, digits) ∧ base ≤ 16 ∧ Numeral base digits n := by
  cases h with
  | decimal h =>
    refine ⟨10, s, ?_, by decide, h⟩
    have hdigits := isDigit_of_numeral h
    unfold splitMark
    split
    · exact absurd (hdigits 'x' (by simp)) (by decide)
    · exact absurd (hdigits 'X' (by simp)) (by decide)
    · rfl
  | hex hx h =>
    rcases hx with rfl | rfl
    · exact ⟨16, _, rfl, Nat.le_refl _, h⟩
    · exact ⟨16, _, rfl, Nat.le_refl _, h⟩

theorem magnitudeValue_eq (s : List Char) :
    magnitudeValue s = digitsValue (splitMark s).1 (splitMark s).2 := by
  fun_cases splitMark s with
  | case1 => rfl
  | case2 => rfl
  | case3 _ hlower hupper => exact magnitudeValue.eq_3 _ hlower hupper

theorem magnitudeValue_of_spellsNumber {n : Nat} (h : SpellsNumber s n) : magnitudeValue s = n := by
  obtain ⟨base, digits, hmark, hbase, hdigits⟩ := splitMark_of_spellsNumber h
  rw [magnitudeValue_eq, hmark]
  exact digitsValue_of_numeral hdigits hbase

theorem splitSign_of_spellsNumber {n : Nat} (h : SpellsNumber s n) : splitSign s = (false, s) := by
  obtain ⟨c, cs, rfl, hc⟩ := exists_digit_of_spellsNumber h
  unfold splitSign
  split
  · rename_i heq
    obtain rfl := (List.cons.inj heq).1
    exact absurd hc (by decide)
  · rfl

theorem literalValue_of_spellsInteger {n : Int} (h : SpellsInteger s n) :
    literalValue s = n ∧ magnitudeValue (splitSign s).2 = n.natAbs := by
  cases h with
  | unsigned h =>
    rw [literalValue, splitSign_of_spellsNumber h]
    simp [magnitudeValue_of_spellsNumber h]
  | negative h =>
    simp [literalValue, splitSign, magnitudeValue_of_spellsNumber h]

theorem integerOfLiteral_of_spellsInteger {n : Int} (h : SpellsInteger s n) :
    integerOfLiteral s =
      if -(twoPow 63 : Int) ≤ n ∧ n < twoPow 63 then .ok (Int64.ofInt n)
      else .error (faultOf n) := by
  obtain ⟨hvalue, hmagnitude⟩ := literalValue_of_spellsInteger h
  have hlarge : twoPow 63 < twoPow 127 := by decide
  rw [integerOfLiteral, hmagnitude]
  by_cases hbig : twoPow 127 ≤ n.natAbs
  · have hout : ¬ (-(twoPow 63 : Int) ≤ n ∧ n < twoPow 63) := by omega
    rw [if_pos hbig, if_neg hout, faultOf, if_pos hbig]
  · simp only [hvalue, faultOf, if_neg hbig]

theorem unescape_of_spellsText {text : List Char} (h : SpellsText s text) : unescape s = text := by
  induction h with
  | nil => rfl
  | plain _ hbackslash _ ih =>
    rw [unescape.eq_3 _ _ fun _ _ hc _ => hbackslash hc, ih]
  | lineFeed _ ih | tab _ ih | null _ ih =>
    rw [unescape, ih]
    rfl
  | @escaped c _ _ hc _ ih =>
    have hself : escaped c = c := by
      simp only [List.mem_cons, List.not_mem_nil, or_false, not_or] at hc
      unfold escaped
      split
      · exact absurd rfl hc.1
      · exact absurd rfl hc.2.1
      · exact absurd rfl hc.2.2
      · rfl
    rw [unescape, ih, hself]

section Answers

variable {α β γ δ : Type} {x : Except Refusal α} {y : Except SourceError α}

theorem Answers.bind {f : α → Except Refusal β} {g : α → Except SourceError β} (h : Answers x y)
    (hf : ∀ a, Answers (f a) (g a)) : Answers (x >>= f) (y >>= g) := by
  cases h with
  | ok a => exact hf a
  | integer h => exact .integer h
  | table error => exact .table error

theorem Answers.map (h : Answers x y) (f : α → β) : Answers (x.map f) (y.map f) := by
  cases h with
  | ok a => exact .ok (f a)
  | integer h => exact .integer h
  | table error => exact .table error

/-- Loops over corresponding items answer each other if their steps do. -/
theorem Answers.foldlM {R : γ → δ → Prop} {f : α → δ → Except Refusal α}
    {g : α → γ → Except SourceError α} {items : List γ} {contents : List δ}
    (h : List.Forall₂ R items contents) (step : ∀ a i c, R i c → Answers (f a c) (g a i)) (a : α) :
    Answers (contents.foldlM f a) (items.foldlM g a) := by
  induction h generalizing a with
  | nil => exact .ok a
  | cons hr _ ih =>
    rw [List.foldlM_cons, List.foldlM_cons]
    exact (step a _ _ hr).bind ih

end Answers

mutual

theorem answers_cell : ∀ {term : Term} {content : Content}, term.Denotes content →
    Answers content.cell term.cell
  | _, _, .absent => .ok _
  | _, _, .bool _ => .ok _
  | .integer literal, .integer n, .integer h => by
    rw [Content.cell, Term.cell, integerOfLiteral_of_spellsInteger h]
    by_cases hfits : -(twoPow 63 : Int) ≤ n ∧ n < twoPow 63
    · rw [if_pos hfits, if_pos hfits]
      exact .ok _
    · rw [if_neg hfits, if_neg hfits]
      exact .integer h
  | .text spelling, .text text, .text h => by
    rw [Content.cell, Term.cell, unescape_of_spellsText h, String.ofList_toList]
    exact .ok _
  | _, _, .list h => (answers_cells h).map _
  | _, _, .tuple h => (answers_cells h).map _

theorem answers_cells : ∀ {terms : List Term} {contents : List Content},
    List.Forall₂ Term.Denotes terms contents →
      Answers (cellsOfContents contents) (cellsOfTerms terms)
  | _, _, .nil => .ok _
  | _, _, .cons h hs => (answers_cell h).bind fun _ => (answers_cells hs).bind fun _ => .ok _

end

/-! ## Documents -/

theorem Answers.withTable (d : Declared) (step : Except TableError Table) :
    Answers (do
      let table ← step.mapError Refusal.table
      return { d with table }) (d.withTable step) := by
  cases step with
  | ok table => exact .ok _
  | error error => exact .table error

theorem answers_addOption {d : Declared} {entry : String × Term} {content : String × Content}
    (h : entry.1 = content.1 ∧ entry.2.Denotes content.2) :
    Answers (Clause.take d (.option content.1 content.2)) (d.addOption entry) := by
  obtain ⟨key, term⟩ := entry
  obtain ⟨rfl, hterm⟩ := h
  exact (answers_cell hterm).bind fun _ => .ok _

theorem answers_addRow {d : Declared} {terms : List Term} {contents : List Content}
    (h : List.Forall₂ Term.Denotes terms contents) :
    Answers (Clause.take d (.row contents)) (d.addRow terms) :=
  (answers_cells h).bind fun _ => .withTable d _

theorem answers_addSection {written : Section} {part : Part} (h : written.Denotes part)
    (d : Declared) : Answers (part.clauses.foldlM Clause.take d) (d.addSection written) := by
  cases h with
  | options h =>
    rw [Part.clauses, List.foldlM_map]
    have hstep : ∀ (d : Declared) (e : String × Term) (c : String × Content),
        e.1 = c.1 ∧ e.2.Denotes c.2 → Answers (Clause.take d (.option c.1 c.2)) (d.addOption e) :=
      fun _ _ _ => answers_addOption
    exact Answers.foldlM h hstep d
  | table h =>
    have hstep : ∀ (d : Declared) (r : List Term) (c : List Content),
        List.Forall₂ Term.Denotes r c → Answers (Clause.take d (.row c)) (d.addRow r) :=
      fun _ _ _ => answers_addRow
    rw [Part.clauses, List.foldlM_cons]
    refine (Answers.withTable d _).bind fun d => ?_
    rw [List.foldlM_map]
    exact Answers.foldlM h hstep d

theorem answers_foldlM_addSection {document : Document} {parts : List Part}
    (h : document.Denotes parts) (d : Declared) :
    Answers ((parts.flatMap Part.clauses).foldlM Clause.take d)
      (document.foldlM Declared.addSection d) := by
  induction h generalizing d with
  | nil => exact .ok d
  | cons hsection _ ih =>
    rw [List.flatMap_cons, List.foldlM_append, List.foldlM_cons]
    exact (answers_addSection hsection d).bind ih

theorem answers_evaluate {document : Document} {parts : List Part} (h : document.Denotes parts) :
    Answers (evaluate (parts.flatMap Part.clauses)) document.evaluate :=
  (answers_foldlM_addSection h {}).bind fun _ => .ok _

/-! ## Options and tables -/

/-- What a clause does to the table. -/
def Clause.onTable (table : Table) : Clause → Except Refusal Table
  | .option .. => .ok table
  | .columns names => (table.declareColumns names).mapError .table
  | .row contents => do
    let cells ← cellsOfContents contents
    (table.declareRow cells).mapError .table

/-- What a clause does to the options. -/
def Clause.onOptions (options : List (String × Cell)) :
    Clause → Except Refusal (List (String × Cell))
  | .option key value => value.cell.map fun cell => options ++ [(key, cell)]
  | .columns _ => .ok options
  | .row _ => .ok options

theorem withTable_eq_ok {d next : Declared} {step : Except Refusal Table} :
    (do
      let table ← step
      return { d with table }) = Except.ok next ↔
      step = .ok next.table ∧ d.options = next.options := by
  obtain ⟨table, options⟩ := next
  cases step with
  | error e => simp [Bind.bind, Except.bind]
  | ok t => simp [Bind.bind, Except.bind, pure, Except.pure]

/-- A clause acts on the table and on the options apart. -/
theorem take_eq_ok {d next : Declared} {clause : Clause} :
    clause.take d = .ok next ↔
      clause.onTable d.table = .ok next.table ∧ clause.onOptions d.options = .ok next.options := by
  cases clause with
  | option key value =>
    obtain ⟨table, options⟩ := next
    simp only [Clause.take, Clause.onTable, Clause.onOptions]
    cases value.cell with
    | error e => simp [Except.map]
    | ok cell => simp [Except.map]
  | columns names =>
    rw [Clause.take, withTable_eq_ok, Clause.onTable, Clause.onOptions, Except.ok.injEq]
  | row contents =>
    rw [Clause.take, Clause.onTable, Clause.onOptions, Except.ok.injEq]
    cases cellsOfContents contents with
    | error e => simp [Bind.bind, Except.bind]
    | ok cells => exact withTable_eq_ok

theorem onTable_of_isOption {clause : Clause} (h : clause.isOption = true) (table : Table) :
    clause.onTable table = .ok table := by
  cases clause with
  | option key value => rfl
  | columns _ | row _ => cases h

theorem onOptions_of_not_isOption {clause : Clause} (h : clause.isOption = false)
    (options : List (String × Cell)) : clause.onOptions options = .ok options := by
  cases clause with
  | option _ _ => cases h
  | columns _ | row _ => rfl

/-- Clauses act on the table and on the options apart. -/
theorem foldlM_take_eq_ok {d next : Declared} {clauses : List Clause} :
    clauses.foldlM Clause.take d = .ok next ↔
      (clauses.filter (!·.isOption)).foldlM Clause.onTable d.table = .ok next.table ∧
        (clauses.filter Clause.isOption).foldlM Clause.onOptions d.options = .ok next.options := by
  induction clauses generalizing d with
  | nil =>
    obtain ⟨table, options⟩ := next
    obtain ⟨table', options'⟩ := d
    simp [pure, Except.pure]
  | cons clause clauses ih =>
    rw [List.foldlM_cons, bind_eq_ok]
    -- a clause is in one of the two lists and leaves the other part alone
    by_cases hoption : clause.isOption = true
    · rw [List.filter_cons_of_neg (by simp [hoption]), List.filter_cons_of_pos hoption,
        List.foldlM_cons, bind_eq_ok]
      constructor
      · rintro ⟨d', hd', hrest⟩
        obtain ⟨htable, hoptions⟩ := take_eq_ok.mp hd'
        obtain ⟨htables, hrest⟩ := ih.mp hrest
        rw [onTable_of_isOption hoption] at htable
        rw [← Except.ok.inj htable] at htables
        exact ⟨htables, d'.options, hoptions, hrest⟩
      · rintro ⟨htables, options, hoptions, hrest⟩
        refine ⟨{ d with options }, take_eq_ok.mpr ⟨onTable_of_isOption hoption _, hoptions⟩, ?_⟩
        exact ih.mpr ⟨htables, hrest⟩
    · have htable : clause.isOption = false := by simpa using hoption
      rw [List.filter_cons_of_pos (by simp [htable]), List.filter_cons_of_neg hoption,
        List.foldlM_cons, bind_eq_ok]
      constructor
      · rintro ⟨d', hd', hrest⟩
        obtain ⟨htable', hoptions⟩ := take_eq_ok.mp hd'
        obtain ⟨htables, hrest⟩ := ih.mp hrest
        rw [onOptions_of_not_isOption htable] at hoptions
        rw [← Except.ok.inj hoptions] at hrest
        exact ⟨⟨d'.table, htable', htables⟩, hrest⟩
      · rintro ⟨⟨table, htable', htables⟩, hrest⟩
        refine ⟨{ d with table }, take_eq_ok.mpr ⟨htable', onOptions_of_not_isOption htable _⟩, ?_⟩
        exact ih.mpr ⟨htables, hrest⟩

theorem evaluate_of_sameClauses {clauses others : List Clause} {schema : SchemaSource}
    (h : SameClauses clauses others) (hs : evaluate clauses = .ok schema) :
    evaluate others = .ok schema := by
  obtain ⟨d, hd, hschema⟩ := bind_eq_ok.mp hs
  refine bind_eq_ok.mpr ⟨d, ?_, hschema⟩
  rw [foldlM_take_eq_ok] at hd ⊢
  rw [← h.1, ← h.2]
  exact hd

theorem Answers.eq_ok_iff {α : Type} {x : Except Refusal α} {y : Except SourceError α} {a : α}
    (h : Answers x y) : x = .ok a ↔ y = .ok a := by
  cases h with
  | ok b => simp
  | integer _ => simp
  | table _ => simp

/-- Reading a source gives back the document that it renders. -/
theorem parse_of_rendered {document : Document} {source : String}
    (h : document.Rendered source.toList) : parse source = document.evaluate := by
  have hread : Document.read? source = .ok document := read?_of_rendered h
  unfold parse
  rw [hread]

theorem answers_parse {parts : List Part} {source : String} (h : IsRendering parts source) :
    Answers (evaluate (parts.flatMap Part.clauses)) (parse source) := by
  obtain ⟨document, hdenotes, hrendered⟩ := h
  rw [parse_of_rendered hrendered]
  exact answers_evaluate hdenotes

/-! ## A schema in two sources -/

theorem isGap_of_all (h : s.all (· ∈ [' ', '\t', '\r', '\n']) = true) : IsGap s := by
  induction s with
  | nil => exact .nil
  | cons c s ih =>
    rw [List.all_cons, Bool.and_eq_true] at h
    exact .blank (of_decide_eq_true h.1) (ih h.2)

/-- A text that is cut in front of its tokens and behind them has gaps in front of them. -/
theorem spaced_of_forall_isGap {pieces : List (String × String)}
    (h : ∀ p ∈ pieces, IsGap p.1.toList) :
    Spaced (pieces.map (·.2.toList)) (pieces.flatMap fun p => p.1.toList ++ p.2.toList) := by
  induction pieces with
  | nil => exact .nil
  | cons p pieces ih =>
    rw [List.forall_mem_cons] at h
    rw [List.flatMap_cons, List.append_assoc]
    exact .cons h.1 (ih h.2)

namespace Sample

/-- The option in front of the table of the first source. -/
def depth : String × Content :=
  ("depth", .integer (-31))

/-- The option behind the table of the first source. -/
def names : String × Content :=
  ("names", .list [.absent, .tuple [.bool true]])

def row : List Content :=
  [.text "A//", .text "a\n"]

/-- The table between the options. -/
def parts : List Part :=
  [.options [depth], .table ["name", "shortname"] [row], .options [names]]

/-- The table behind the options. -/
def otherParts : List Part :=
  [.options [depth, names], .table ["name", "shortname"] [row]]

def schema : SchemaSource where
  messages := [{ name := "A//", shortName := "a\n" }]
  options := [("depth", .integer (-31)), ("names", .list [.absent, .tuple [.bool true]])]

/-- The document of the first source. -/
def document : Document :=
  [.options [("depth", .integer "-0x1F")],
    .table ["name", "shortname"] [[.text "\\A//", .text "a\\n"]],
    .options [("names", .list [.absent, .tuple [.bool true]])]]

/-- The document of the second source. -/
def otherDocument : Document :=
  [.options [("depth", .integer "-031"), ("names", .list [.absent, .tuple [.bool true]])],
    .table ["name", "shortname"] [[.text "A\\/\\/", .text "a\n"]]]

def source : String :=
  "/* \" // */options\x7bdepth=-0x1F;\x7d\n\ttable(name,// key\r\nshortname,)" ++
    "\x7b(\"\\A//\",\"a\\n\",),\x7doptions\x7bnames=[_,(true,)];\x7d// end"

def otherSource : String :=
  "options \x7b depth = -031; names = [none, (true)]; \x7d\n" ++
    "table (name, shortname) \x7b (\"A\\/\\/\", \"a\n\") \x7d\n"

/-- The first source up to its last gap, cut in front of its tokens and behind them. -/
def pieces : List (String × String) :=
  [("/* \" // */", "options"), ("", "\x7b"), ("", "depth"), ("", "="), ("", "-0x1F"), ("", ";"),
    ("", "\x7d"), ("\n\t", "table"), ("", "("), ("", "name"), ("", ","),
    ("// key\r\n", "shortname"), ("", ","), ("", ")"), ("", "\x7b"), ("", "("),
    ("", "\"\\A//\""), ("", ","), ("", "\"a\\n\""), ("", ","), ("", ")"), ("", ","),
    ("", "\x7d"), ("", "options"), ("", "\x7b"), ("", "names"), ("", "="), ("", "["), ("", "_"),
    ("", ","), ("", "("), ("", "true"), ("", ","), ("", ")"), ("", "]"), ("", ";"), ("", "\x7d")]

/-- The second source up to its last gap. -/
def otherPieces : List (String × String) :=
  [("", "options"), (" ", "\x7b"), (" ", "depth"), (" ", "="), (" ", "-031"), ("", ";"),
    (" ", "names"), (" ", "="), (" ", "["), ("", "none"), ("", ","), (" ", "("), ("", "true"),
    ("", ")"), ("", "]"), ("", ";"), (" ", "\x7d"), ("\n", "table"), (" ", "("), ("", "name"),
    ("", ","), (" ", "shortname"), ("", ")"), (" ", "\x7b"), (" ", "("), ("", "\"A\\/\\/\""),
    ("", ","), (" ", "\"a\n\""), ("", ")"), (" ", "\x7d")]

theorem spellsInteger_hex : SpellsInteger "-0x1F".toList (-31) :=
  have h1 : Numeral 16 ['1'] 1 := .digit (by decide) (.inl rfl)
  .negative (.hex (.inl rfl) (.snoc h1 (d := 15) (by decide) (.inr rfl)))

theorem spellsInteger_decimal : SpellsInteger "-031".toList (-31) :=
  have h0 : Numeral 10 ['0'] 0 := .digit (by decide) (.inl rfl)
  have h03 : Numeral 10 ['0', '3'] 3 := .snoc h0 (d := 3) (by decide) (.inl rfl)
  .negative (.decimal (.snoc h03 (d := 1) (by decide) (.inl rfl)))

theorem spellsText_name : SpellsText "\\A//".toList "A//".toList :=
  .escaped (by decide) (.plain (by decide) (by decide) (.plain (by decide) (by decide) .nil))

theorem spellsText_escapedName : SpellsText "A\\/\\/".toList "A//".toList :=
  .plain (by decide) (by decide) (.escaped (by decide) (.escaped (by decide) .nil))

theorem spellsText_shortName : SpellsText "a\\n".toList "a\n".toList :=
  .plain (by decide) (by decide) (.lineFeed .nil)

theorem spellsText_rawShortName : SpellsText "a\n".toList "a\n".toList :=
  .plain (by decide) (by decide) (.plain (by decide) (by decide) .nil)

theorem denotes_names : (Term.list [.absent, .tuple [.bool true]]).Denotes names.2 :=
  .list (.cons .absent (.cons (.tuple (.cons (.bool true) .nil)) .nil))

theorem denotes_document : Document.Denotes document parts :=
  .cons (.options (.cons ⟨rfl, .integer spellsInteger_hex⟩ .nil))
    (.cons (.table (.cons (.cons (.text spellsText_name) (.cons (.text spellsText_shortName) .nil))
      .nil))
      (.cons (.options (.cons ⟨rfl, denotes_names⟩ .nil)) .nil))

theorem denotes_otherDocument : Document.Denotes otherDocument otherParts :=
  .cons (.options (.cons ⟨rfl, .integer spellsInteger_decimal⟩ (.cons ⟨rfl, denotes_names⟩ .nil)))
    (.cons (.table (.cons (.cons (.text spellsText_escapedName)
      (.cons (.text spellsText_rawShortName) .nil)) .nil)) .nil)

theorem isGap_pieces : ∀ p ∈ pieces, IsGap p.1.toList := by
  have hgaps : ∀ p ∈ pieces, p.1 ∈ ["", "/* \" // */", "\n\t", "// key\r\n"] := by decide
  have hclosed : ¬ ['*', '/'] <:+: " \" // ".toList := by decide
  have hblock : IsGap "/* \" // */".toList := .blockComment hclosed .nil
  have hended : '\n' ∉ " key\r".toList := by decide
  have hline : IsGap "// key\r\n".toList := .lineComment hended .nil
  have hblank : IsGap "\n\t".toList := .blank (by decide) (.blank (by decide) .nil)
  intro p hp
  have hgap := hgaps p hp
  simp only [List.mem_cons, List.not_mem_nil, or_false] at hgap
  rcases hgap with h | h | h | h <;> rw [h]
  · exact .nil
  · exact hblock
  · exact hblank
  · exact hline

theorem isGap_otherPieces : ∀ p ∈ otherPieces, IsGap p.1.toList := by
  have hgaps : ∀ p ∈ otherPieces, p.1.toList.all (· ∈ [' ', '\t', '\r', '\n']) = true := by
    decide
  exact fun p hp => isGap_of_all (hgaps p hp)

theorem written_document :
    Sequence Section.Written document (pieces.map (·.2.toList)) := by
  have hdepth : EntryWritten ("depth", .integer "-0x1F") _ :=
    .entry (by decide) (.integer spellsInteger_hex)
  have htrue : Listed Term.Written [.bool true] _ := .cons .true .comma
  have hnames : EntryWritten ("names", .list [.absent, .tuple [.bool true]]) _ :=
    .entry (by decide) (.list (.cons .underscore (.cons (.tuple htrue) .nil)))
  have hcolumns : Listed IdentifierWritten ["name", "shortname"] _ :=
    .cons (.name (by decide)) (.cons (.name (by decide)) .comma)
  have hrow : RowWritten [.text "\\A//", .text "a\\n"] _ :=
    .row (.cons (.text spellsText_name) (.cons (.text spellsText_shortName) .comma))
  have hfirst : Section.Written (.options [("depth", .integer "-0x1F")]) _ :=
    .options (.cons hdepth .nil)
  have htable : Section.Written (.table ["name", "shortname"] [[.text "\\A//", .text "a\\n"]]) _ :=
    .table (by decide) hcolumns (.cons hrow .comma)
  have hlast : Section.Written (.options [("names", .list [.absent, .tuple [.bool true]])]) _ :=
    .options (.cons hnames .nil)
  exact .cons hfirst (.cons htable (.cons hlast .nil))

theorem written_otherDocument :
    Sequence Section.Written otherDocument (otherPieces.map (·.2.toList)) := by
  have hdepth : EntryWritten ("depth", .integer "-031") _ :=
    .entry (by decide) (.integer spellsInteger_decimal)
  have htrue : Listed Term.Written [.bool true] _ := .cons .true .nil
  have hnames : EntryWritten ("names", .list [.absent, .tuple [.bool true]]) _ :=
    .entry (by decide) (.list (.cons .none (.cons (.tuple htrue) .nil)))
  have hcolumns : Listed IdentifierWritten ["name", "shortname"] _ :=
    .cons (.name (by decide)) (.cons (.name (by decide)) .nil)
  have hrow : RowWritten [.text "A\\/\\/", .text "a\n"] _ :=
    .row (.cons (.text spellsText_escapedName) (.cons (.text spellsText_rawShortName) .nil))
  have hoptions : Section.Written (.options [("depth", .integer "-031"),
      ("names", .list [.absent, .tuple [.bool true]])]) _ :=
    .options (.cons hdepth (.cons hnames .nil))
  have htable : Section.Written
      (.table ["name", "shortname"] [[.text "A\\/\\/", .text "a\n"]]) _ :=
    .table (by decide) hcolumns (.cons hrow .nil)
  exact .cons hoptions (.cons htable .nil)

theorem rendered_source : Document.Rendered document source.toList := by
  have hsource : source.toList =
      (pieces.flatMap fun p => p.1.toList ++ p.2.toList) ++ "// end".toList := by
    decide +kernel
  have hopen : '\n' ∉ " end".toList := by decide
  have hlast : IsLastGap "// end".toList := .lineComment .nil hopen
  rw [hsource]
  exact .source written_document (spaced_of_forall_isGap isGap_pieces) hlast

theorem rendered_otherSource : Document.Rendered otherDocument otherSource.toList := by
  have hsource : otherSource.toList =
      (otherPieces.flatMap fun p => p.1.toList ++ p.2.toList) ++ ['\n'] := by
    decide +kernel
  rw [hsource]
  exact .source written_otherDocument (spaced_of_forall_isGap isGap_otherPieces)
    (.gap (isGap_of_all rfl))

theorem sameClauses : SameClauses (parts.flatMap Part.clauses) (otherParts.flatMap Part.clauses) :=
  ⟨rfl, rfl⟩

end Sample

/-- Every well-formed source means what it says. Whatever its gaps, its commas and the spelling of
its literals are, what a source of a document is read as is what evaluating the document gives, and
that answers what evaluating the parts in order gives. A schema that is found is found in all
sources of the same options and tables, however they are written and mixed. -/
theorem parse_of_rendering {document : Document} {parts : List Part} {source : String}
    (hdenotes : document.Denotes parts) (hrendered : document.Rendered source.toList) :
    parse source = document.evaluate ∧
      Answers (evaluate (parts.flatMap Part.clauses)) (parse source) ∧
      ∀ schema, parse source = .ok schema → ∀ others other, IsRendering others other →
        SameClauses (parts.flatMap Part.clauses) (others.flatMap Part.clauses) →
          parse other = .ok schema := by
  have hanswers := answers_parse ⟨document, hdenotes, hrendered⟩
  refine ⟨parse_of_rendered hrendered, hanswers, ?_⟩
  intro schema hschema others other hother hsame
  have hclauses : evaluate (parts.flatMap Part.clauses) = .ok schema :=
    hanswers.eq_ok_iff.mpr hschema
  have hothers : evaluate (others.flatMap Part.clauses) = .ok schema :=
    evaluate_of_sameClauses hsame hclauses
  exact (answers_parse hother).eq_ok_iff.mp hothers

theorem parse_sample :
    Document.Denotes Sample.document Sample.parts ∧
      Document.Rendered Sample.document Sample.source.toList ∧
      IsRendering Sample.otherParts Sample.otherSource ∧
      parse Sample.source = .ok Sample.schema ∧ parse Sample.otherSource = .ok Sample.schema := by
  have hother : IsRendering Sample.otherParts Sample.otherSource :=
    ⟨_, Sample.denotes_otherDocument, Sample.rendered_otherSource⟩
  obtain ⟨hparse, -, hothers⟩ :=
    parse_of_rendering Sample.denotes_document Sample.rendered_source
  have hschema : parse Sample.source = .ok Sample.schema := hparse.trans rfl
  exact ⟨Sample.denotes_document, Sample.rendered_source, hother, hschema,
    hothers _ hschema _ _ hother Sample.sameClauses⟩

end MessageSchema.Source
