import MessageSchema.Proofs.Source.Accepted
import MessageSchema.Proofs.Source.Boundaries
import MessageSchema.Proofs.Source.Meaning

/-!
# Sources are unambiguous

What is read is a rendering, and every rendering is read, so a source renders at most one document.
Since a literal spells one value, it has at most one list of parts. Main statement:
`readAs_or_malformed`.

- **Contents** (`exists_denotes_document`, `denotes_document_unique`): a written document has one
  content.
- **Sources** (`ReadAs`): what an accepted source determines.
- **An example** (`readAs_sample`): a source that is accepted, and the same source cut in a text.
-/

namespace MessageSchema.Source

open Text

section Items

variable {α β : Type} {Written : α → List (List Char) → Prop} {P : α → Prop} {xs : List α}
  {tokens : List (List Char)} {n : Nat}

theorem forall_mem_of_continued (hw : ∀ x ts, Written x ts → ts.length ≤ n → P x)
    (h : Continued Written xs tokens) (hn : tokens.length ≤ n) : ∀ x ∈ xs, P x := by
  induction h with
  | nil | comma => exact List.forall_mem_nil _
  | cons hx _ ih =>
    simp only [List.length_cons, List.length_append] at hn
    exact List.forall_mem_cons.mpr ⟨hw _ _ hx (by omega), ih (by omega)⟩

theorem forall_mem_of_listed (hw : ∀ x ts, Written x ts → ts.length ≤ n → P x)
    (h : Listed Written xs tokens) (hn : tokens.length ≤ n) : ∀ x ∈ xs, P x := by
  cases h with
  | nil => exact List.forall_mem_nil _
  | cons hx hxs =>
    simp only [List.length_append] at hn
    exact List.forall_mem_cons.mpr
      ⟨hw _ _ hx (by omega), forall_mem_of_continued hw hxs (by omega)⟩

theorem forall_mem_of_sequence (hw : ∀ x ts, Written x ts → P x) (h : Sequence Written xs tokens) :
    ∀ x ∈ xs, P x := by
  induction h with
  | nil => exact List.forall_mem_nil _
  | cons hx _ ih => exact List.forall_mem_cons.mpr ⟨hw _ _ hx, ih⟩

theorem exists_forall₂ {R : α → β → Prop} (h : ∀ x ∈ xs, ∃ y, R x y) :
    ∃ ys, List.Forall₂ R xs ys := by
  induction xs with
  | nil => exact ⟨[], .nil⟩
  | cons x xs ih =>
    obtain ⟨⟨y, hy⟩, hxs⟩ := List.forall_mem_cons.mp h
    obtain ⟨ys, hys⟩ := ih hxs
    exact ⟨y :: ys, .cons hy hys⟩

end Items

/-! ## What is written has a content -/

/-- Every term that is written has a content. -/
theorem exists_denotes_term {t : Term} {tokens : List (List Char)} (h : t.Written tokens) :
    ∃ content, t.Denotes content := by
  induction hn : tokens.length using Nat.strongRecOn generalizing t tokens with
  | _ n ih =>
    subst hn
    have hitems : ∀ {items : List Term} {inner : List (List Char)},
        Listed Term.Written items inner → inner.length < tokens.length →
          ∃ contents, List.Forall₂ Term.Denotes items contents := fun h hinner =>
      exists_forall₂ (forall_mem_of_listed
        (fun _ _ hx hlength => ih _ (Nat.lt_of_le_of_lt hlength hinner) hx rfl) h (Nat.le_refl _))
    cases h with
    | none | underscore => exact ⟨_, .absent⟩
    | true | false => exact ⟨_, .bool _⟩
    | integer h => exact ⟨_, .integer h⟩
    | @text s text h => exact ⟨.text (String.ofList text), .text (by rwa [String.toList_ofList])⟩
    | list h =>
      obtain ⟨contents, hcontents⟩ := hitems h (length_lt_brackets _ _ _)
      exact ⟨_, .list hcontents⟩
    | tuple h =>
      obtain ⟨contents, hcontents⟩ := hitems h (length_lt_brackets _ _ _)
      exact ⟨_, .tuple hcontents⟩

theorem exists_denotes_row {items : List Term} {tokens : List (List Char)}
    (h : RowWritten items tokens) : ∃ contents, List.Forall₂ Term.Denotes items contents := by
  cases h with
  | row h =>
    exact exists_forall₂ (forall_mem_of_listed (fun _ _ hx _ => exists_denotes_term hx) h
      (Nat.le_refl _))

theorem exists_denotes_entry {entry : String × Term} {tokens : List (List Char)}
    (h : EntryWritten entry tokens) :
    ∃ content : String × Content, entry.1 = content.1 ∧ entry.2.Denotes content.2 := by
  cases h with
  | @entry key value _ _ h =>
    obtain ⟨content, hcontent⟩ := exists_denotes_term h
    exact ⟨(key, content), rfl, hcontent⟩

theorem exists_denotes_section {written : Section} {tokens : List (List Char)}
    (h : written.Written tokens) : ∃ part, written.Denotes part := by
  cases h with
  | options h =>
    obtain ⟨contents, hcontents⟩ :=
      exists_forall₂ (forall_mem_of_sequence (fun _ _ hx => exists_denotes_entry hx) h)
    exact ⟨_, .options hcontents⟩
  | table _ _ h =>
    obtain ⟨contents, hcontents⟩ := exists_forall₂ (forall_mem_of_listed
      (fun _ _ hx _ => exists_denotes_row hx) h (Nat.le_refl _))
    exact ⟨_, .table hcontents⟩

theorem exists_denotes_document {document : Document} {s : List Char} (h : document.Rendered s) :
    ∃ parts, document.Denotes parts := by
  obtain ⟨hsections, -, -⟩ := h
  exact exists_forall₂ (forall_mem_of_sequence (fun _ _ hx => exists_denotes_section hx) hsections)

/-! ## And only one -/

mutual

theorem denotes_term_unique : ∀ {term : Term} {content other : Content},
    term.Denotes content → term.Denotes other → content = other
  | _, _, _, .absent, .absent => rfl
  | _, _, _, .bool _, .bool _ => rfl
  | _, _, _, .integer h, .integer h' =>
    congrArg Content.integer ((literalValue_of_spellsInteger h).1.symm.trans
      (literalValue_of_spellsInteger h').1)
  | _, _, _, .text h, .text h' =>
    congrArg Content.text (String.toList_injective ((unescape_of_spellsText h).symm.trans
      (unescape_of_spellsText h')))
  | _, _, _, .list h, .list h' => congrArg Content.list (denotes_terms_unique h h')
  | _, _, _, .tuple h, .tuple h' => congrArg Content.tuple (denotes_terms_unique h h')

theorem denotes_terms_unique : ∀ {terms : List Term} {contents others : List Content},
    List.Forall₂ Term.Denotes terms contents → List.Forall₂ Term.Denotes terms others →
      contents = others
  | _, _, _, .nil, .nil => rfl
  | _, _, _, .cons h hs, .cons h' hs' =>
    congrArg₂ List.cons (denotes_term_unique h h') (denotes_terms_unique hs hs')

end

/-- A section denotes one part only. -/
theorem denotes_section_unique {written : Section} {part other : Part} (h : written.Denotes part)
    (h' : written.Denotes other) : part = other := by
  cases h with
  | options h =>
    cases h' with
    | options h' =>
      refine congrArg Part.options (Relator.RightUnique.forall₂ ?_ h h')
      rintro ⟨key, value⟩ ⟨_, content⟩ ⟨_, other⟩ ⟨rfl, hvalue⟩ ⟨rfl, hother⟩
      exact congrArg _ (denotes_term_unique hvalue hother)
  | table h =>
    cases h' with
    | table h' =>
      refine congrArg (Part.table _) (Relator.RightUnique.forall₂ ?_ h h')
      exact fun _ _ _ => denotes_terms_unique

theorem denotes_document_unique {document : Document} {parts others : List Part}
    (h : document.Denotes parts) (h' : document.Denotes others) : parts = others :=
  Relator.RightUnique.forall₂ (R := Section.Denotes) (fun _ _ _ => denotes_section_unique) h h'

/-! ## Sources -/

/-- The source is a rendering of the document with these parts, in whole tokens. It renders no other
document and no other parts, and what it is read as is what they evaluate to. -/
structure ReadAs (source : String) (document : Document) (parts : List Part) : Prop where
  denotes : document.Denotes parts
  lexed : ∃ tokens, Sequence Section.Written document tokens ∧ Lexed tokens source.toList
  onlyDocument : ∀ other : Document, other.Rendered source.toList → other = document
  onlyParts : ∀ others, IsRendering others source → others = parts
  evaluated : parse source = document.evaluate
  answers : Answers (evaluate (parts.flatMap Part.clauses)) (parse source)

/-- A source renders one document only. -/
theorem rendered_unique {document other : Document} {source : String}
    (h : document.Rendered source.toList) (h' : other.Rendered source.toList) :
    other = document :=
  Except.ok.inj ((read?_of_rendered h').symm.trans (read?_of_rendered h))

theorem exists_readAs {document : Document} {source : String}
    (h : document.Rendered source.toList) : ∃ parts, ReadAs source document parts := by
  obtain ⟨parts, hparts⟩ := exists_denotes_document h
  refine ⟨parts, hparts, rendered_iff_lexed.mp h, fun _ => rendered_unique h, ?_,
    parse_of_rendered h, answers_parse ⟨document, hparts, h⟩⟩
  rintro others ⟨other, hothers, hother⟩
  obtain rfl := rendered_unique h hother
  exact denotes_document_unique hothers hparts

/-- A source is either read or malformed. -/
theorem exists_document_or_malformed (source : String) :
    (∃ document, Document.read? source = .ok document) ∨
      ∃ error, parse source = .error (.malformed error) := by
  unfold parse
  cases hread : Document.read? source with
  | ok document => exact .inl ⟨document, rfl⟩
  | error error => exact .inr ⟨error, rfl⟩

/-- A source that is not malformed is a rendering, in whole tokens, of just one document with just
one list of parts, and these are what is evaluated. A source that renders no parts is malformed. -/
theorem readAs_or_malformed (source : String) :
    ((∀ error, parse source ≠ .error (.malformed error)) →
        ∃ document parts, ReadAs source document parts) ∧
      ((∀ parts, ¬ IsRendering parts source) →
        ∃ error, parse source = .error (.malformed error)) := by
  rcases exists_document_or_malformed source with ⟨document, hread⟩ | ⟨error, herror⟩
  · have hrendered : document.Rendered source.toList := rendered_of_read? hread
    obtain ⟨parts, h⟩ := exists_readAs hrendered
    exact ⟨fun _ => ⟨document, parts, h⟩,
      fun hnone => absurd ⟨document, h.denotes, hrendered⟩ (hnone parts)⟩
  · exact ⟨fun haccepted => absurd herror (haccepted error), fun _ => ⟨error, herror⟩⟩

/-- A source that ends in a text. -/
def Sample.cutSource : String :=
  "options\x7bdepth=-0x1F;\x7d table(name,shortname)\x7b(\"A\\\\\",\"a"

theorem readAs_sample :
    (∀ error, parse Sample.source ≠ .error (.malformed error)) ∧
      (∃ document parts, ReadAs Sample.source document parts) ∧
      (∀ parts, ¬ IsRendering parts Sample.cutSource) ∧
      ∃ error, parse Sample.cutSource = .error (.malformed error) := by
  have haccepted : ∀ error, parse Sample.source ≠ .error (.malformed error) := by
    intro error
    have hparse : parse Sample.source = .ok Sample.schema :=
      (parse_of_rendered Sample.rendered_source).trans rfl
    rw [hparse]
    exact nofun
  have hcut : (Document.read? Sample.cutSource).isOk = false := by decide +kernel
  have hnone : ∀ parts, ¬ IsRendering parts Sample.cutSource := by
    rintro parts ⟨document, -, hrendered⟩
    rw [read?_of_rendered hrendered] at hcut
    cases hcut
  exact ⟨haccepted, (readAs_or_malformed Sample.source).1 haccepted, hnone,
    (readAs_or_malformed Sample.cutSource).2 hnone⟩

end MessageSchema.Source
