import MessageSchema.Proofs.Source.Complete
import MessageSchema.Proofs.Source.Given

/-!
# What is read is a rendering

`rendered_of_read?`: a source that is read as a document is one of the ways in which this document
can be written.

- **Terms** (`givesWritten_term`): by induction on the limit; a literal is a lexeme of its kind.
- **Sections** (`givesWritten_section`): entries, columns and rows between their marks.
-/

namespace MessageSchema.Source

open Reader Text

variable {limit : Nat} {s rest : List Char}

/-! ## Terms -/

theorem consumed_of_lexeme {token : List Char} (hs : s = token ++ rest) (hne : token ≠ []) :
    Consumed [token] s rest :=
  hs ▸ consumed_token hne rest

theorem givesWritten_absentTerm : GivesWritten Term.Written absentTerm := by
  intro s t rest h
  obtain ⟨word, hword, rfl⟩ := h.of_asRule.of_returns (g := fun _ => Term.absent)
  obtain ⟨p, hp, hread⟩ := hword.of_firstOf
  simp only [List.mem_cons, List.not_mem_nil, or_false] at hp
  rcases hp with rfl | rfl
  · obtain ⟨rfl, hs⟩ := append_of_splitWord hread.of_lexeme
    exact ⟨_, .none, List.cons_ne_nil _ _, consumed_of_lexeme hs (by decide)⟩
  · obtain ⟨rfl, hs⟩ := append_of_splitWord hread.of_lexeme
    exact ⟨_, .underscore, List.cons_ne_nil _ _, consumed_of_lexeme hs (by decide)⟩

theorem givesWritten_boolTerm : GivesWritten Term.Written boolTerm := by
  intro s t rest h
  obtain ⟨word, hword, rfl⟩ := h.of_asRule.of_returns
  obtain ⟨p, hp, hread⟩ := hword.of_firstOf
  simp only [List.mem_cons, List.not_mem_nil, or_false] at hp
  rcases hp with rfl | rfl
  · obtain ⟨rfl, hs⟩ := append_of_splitWord hread.of_lexeme
    exact ⟨_, .true, List.cons_ne_nil _ _, consumed_of_lexeme hs (by decide)⟩
  · obtain ⟨rfl, hs⟩ := append_of_splitWord hread.of_lexeme
    exact ⟨_, .false, List.cons_ne_nil _ _, consumed_of_lexeme hs (by decide)⟩

theorem givesWritten_integerTerm : GivesWritten Term.Written integerTerm := by
  intro s t rest h
  obtain ⟨spelling, hread, rfl⟩ := h.of_asRule.of_returns
  obtain ⟨⟨n, hn⟩, hs⟩ := spellsInteger_of_splitInteger hread.of_lexeme
  have hspells : SpellsInteger (String.ofList spelling).toList n := by
    rwa [String.toList_ofList]
  have hne : spelling ≠ [] := by
    obtain ⟨c, cs, rfl, -⟩ := exists_first_of_spellsInteger hn
    exact List.cons_ne_nil c cs
  refine ⟨_, .integer hspells, List.cons_ne_nil _ _, ?_⟩
  rw [String.toList_ofList]
  exact consumed_of_lexeme hs hne

theorem givesWritten_textTerm : GivesWritten Term.Written textTerm := by
  intro s t rest h
  obtain ⟨quoted, hread, rfl⟩ := h.of_asRule.of_returns
  obtain ⟨body, text, rfl, htext, hs⟩ := spellsText_of_splitText hread.of_lexeme
  have hbody : (('\x22' :: (body ++ ['\x22'])).drop 1).dropLast = body := by simp
  rw [hbody]
  have hspells : SpellsText (String.ofList body).toList text := by rwa [String.toList_ofList]
  refine ⟨_, .text hspells, List.cons_ne_nil _ _, ?_⟩
  rw [String.toList_ofList]
  exact consumed_of_lexeme hs (List.cons_ne_nil _ _)

/-- The items of a list or of a tuple are written between its brackets. -/
theorem consumed_of_termItems {rule : Rule} {left right : String} {p : Reader Term}
    {items : List Term} (hp : GivesWritten Term.Written p) (hleft : left.toList ≠ [])
    (hright : right.toList ≠ []) (h : Gives (termItems rule left right p limit) s items rest) :
    ∃ tokens, Listed Term.Written items tokens ∧
      Consumed (left.toList :: (tokens ++ [right.toList])) s rest :=
  consumed_of_enclosed (givesInside_listed hp) hleft hright h.of_asRule

/-- A term that is read is written with its tokens. -/
theorem givesWritten_term (limit : Nat) : GivesWritten Term.Written (term limit) := by
  induction limit with
  | zero =>
    rintro s t rest ⟨_, _, _, _, h⟩
    cases h
  | succ limit ih =>
    intro s t rest h
    obtain ⟨p, hp, h⟩ := h.of_firstOf
    simp only [List.mem_cons, List.not_mem_nil, or_false] at hp
    rcases hp with rfl | rfl | rfl | rfl | rfl | rfl
    · exact givesWritten_absentTerm s t rest h
    · exact givesWritten_boolTerm s t rest h
    · exact givesWritten_integerTerm s t rest h
    · exact givesWritten_textTerm s t rest h
    · obtain ⟨items, hitems, rfl⟩ := h.of_returns
      obtain ⟨tokens, hlisted, hconsumed⟩ :=
        consumed_of_termItems ih (by decide) (by decide) hitems
      exact ⟨_, .list hlisted, List.cons_ne_nil _ _, hconsumed⟩
    · obtain ⟨items, hitems, rfl⟩ := h.of_returns
      obtain ⟨tokens, hlisted, hconsumed⟩ :=
        consumed_of_termItems ih (by decide) (by decide) hitems
      exact ⟨_, .tuple hlisted, List.cons_ne_nil _ _, hconsumed⟩

/-! ## Sections -/

theorem givesWritten_identifier : GivesWritten IdentifierWritten identifier := by
  intro s name rest h
  obtain ⟨read, hread, rfl⟩ := h.of_asRule.of_returns
  obtain ⟨hname, hs⟩ := isIdentifierChars_of_splitIdentifier hread.of_lexeme
  have hidentifier : isIdentifier (String.ofList read) = true := by
    rwa [isIdentifier, String.toList_ofList]
  have hne : read ≠ [] := by
    rintro rfl
    exact absurd hname (by decide)
  refine ⟨_, .name hidentifier, List.cons_ne_nil _ _, ?_⟩
  rw [String.toList_ofList]
  exact consumed_of_lexeme hs hne

theorem givesWritten_row (limit : Nat) : GivesWritten RowWritten (row limit) := by
  intro s items rest h
  obtain ⟨tokens, hlisted, hconsumed⟩ :=
    consumed_of_termItems (givesWritten_term limit) (by decide) (by decide) h
  exact ⟨_, .row hlisted, List.cons_ne_nil _ _, hconsumed⟩

theorem givesWritten_entry (limit : Nat) : GivesWritten EntryWritten (optionEntry limit) := by
  intro s entry rest h
  obtain ⟨key, t₁, hkey, h⟩ := h.of_asRule.of_bind
  obtain ⟨_, t₂, hgap₁, h⟩ := h.of_bind
  obtain ⟨_, t₃, hequals, h⟩ := h.of_bind
  obtain ⟨_, t₄, hgap₂, h⟩ := h.of_bind
  obtain ⟨value, t₅, hvalue, h⟩ := h.of_bind
  obtain ⟨_, t₆, hgap₃, h⟩ := h.of_bind
  obtain ⟨_, t₇, hend, h⟩ := h.of_bind
  obtain ⟨rfl, rfl⟩ := h.of_pure
  obtain ⟨_, ⟨hname⟩, -, hfirst⟩ := givesWritten_identifier s key t₁ hkey
  obtain ⟨tokens, hterm, hne, hterms⟩ := givesWritten_term limit t₄ value t₅ hvalue
  have hequals : Consumed [['=']] t₁ t₃ :=
    GapTo.consumed_token (hequals.of_exact ▸ hgap₁.gapTo) (by decide)
  have hend : Consumed [[';']] t₅ rest :=
    GapTo.consumed_token (hend.of_exact ▸ hgap₃.gapTo) (by decide)
  refine ⟨_, .entry hname hterm, List.cons_ne_nil _ _, ?_⟩
  exact hfirst.append (hequals.append ((hgap₂.gapTo.consumed hterms hne).append hend))

theorem consumed_of_optionsSection {part : Section} (h : Gives (optionsSection limit) s part rest) :
    ∃ tokens, part.Written tokens ∧ tokens ≠ [] ∧ Consumed tokens s rest := by
  obtain ⟨_, t₁, hmark, h⟩ := h.of_asRule.of_bind
  obtain ⟨_, t₂, hgap, h⟩ := h.of_bind
  obtain ⟨entries, hentries, rfl⟩ := h.of_returns
  obtain ⟨tokens, hsequence, hconsumed⟩ :=
    consumed_of_enclosed (givesInside_sequence (givesWritten_entry limit)) (by decide) (by decide)
      hentries
  have hkeyword : Consumed ["options".toList] s t₁ :=
    consumed_of_lexeme hmark.of_exact (by decide)
  exact ⟨_, .options hsequence, List.cons_ne_nil _ _,
    hkeyword.append (hgap.gapTo.consumed hconsumed (List.cons_ne_nil _ _))⟩

theorem consumed_of_columns {names : List String} (h : Gives (columns limit) s names rest) :
    ∃ tokens, (names ≠ [] ∧ Listed IdentifierWritten names tokens) ∧
      Consumed (['('] :: (tokens ++ [[')']])) s rest :=
  consumed_of_enclosed (givesInside_commaSeparated givesWritten_identifier) (by decide) (by decide)
    h.of_asRule

theorem consumed_of_tableSection {part : Section} (h : Gives (tableSection limit) s part rest) :
    ∃ tokens, part.Written tokens ∧ tokens ≠ [] ∧ Consumed tokens s rest := by
  obtain ⟨_, t₁, hmark, h⟩ := h.of_asRule.of_bind
  obtain ⟨_, t₂, hgap₁, h⟩ := h.of_bind
  obtain ⟨names, t₃, hnames, h⟩ := h.of_bind
  obtain ⟨_, t₄, hgap₂, h⟩ := h.of_bind
  obtain ⟨rows, hrows, rfl⟩ := h.of_returns
  obtain ⟨heads, ⟨hne, hheads⟩, hcolumns⟩ := consumed_of_columns hnames
  obtain ⟨tokens, hlisted, hblock⟩ :=
    consumed_of_enclosed (givesInside_listed (givesWritten_row limit)) (by decide) (by decide) hrows
  have hkeyword : Consumed ["table".toList] s t₁ :=
    consumed_of_lexeme hmark.of_exact (by decide)
  have hcolumns := hgap₁.gapTo.consumed hcolumns (List.cons_ne_nil _ _)
  have hblock := hgap₂.gapTo.consumed hblock (List.cons_ne_nil _ _)
  refine ⟨_, .table hne hheads hlisted, List.cons_ne_nil _ _, ?_⟩
  have hall := hkeyword.append (hcolumns.append hblock)
  simpa using hall

/-- A section that is read is written with its tokens. -/
theorem givesWritten_section (limit : Nat) :
    GivesWritten Section.Written (firstOf [optionsSection limit, tableSection limit]) := by
  intro s part rest h
  obtain ⟨p, hp, h⟩ := h.of_firstOf
  simp only [List.mem_cons, List.not_mem_nil, or_false] at hp
  rcases hp with rfl | rfl
  · exact consumed_of_optionsSection h
  · exact consumed_of_tableSection h

/-! ## Documents -/

theorem Gives.of_endOfInput {u : Unit} (h : Gives endOfInput s u rest) : s = [] ∧ rest = [] := by
  obtain ⟨offset, a, offset', a', h⟩ := h.of_asRule
  dsimp only at h
  split at h
  · rename_i hempty
    cases h
    exact ⟨List.isEmpty_iff.mp hempty, List.isEmpty_iff.mp hempty⟩
  · cases h

/-- A document that is read is one that the source renders. -/
theorem rendered_of_gives {document : Document}
    (h : Gives (Source.document limit) s document rest) : document.Rendered s := by
  obtain ⟨_, t₁, hgap₁, h⟩ := h.of_asRule.of_bind
  obtain ⟨sections, t₂, hmany, h⟩ := h.of_bind
  obtain ⟨_, t₃, hgap₂, h⟩ := h.of_bind
  obtain ⟨_, t₄, hend, h⟩ := h.of_bind
  obtain ⟨rfl, rfl⟩ := h.of_pure
  obtain ⟨tokens, hsections, hconsumed⟩ := sequence_of_many (givesWritten_section limit) hmany
  obtain ⟨rfl, -⟩ := hend.of_endOfInput
  obtain ⟨m, hm, hlast⟩ := hconsumed.between hgap₁.gapTo hgap₂.gapTo
  obtain ⟨a, rfl, ha⟩ := hm.exists_spaced
  exact .source hsections ha hlast.isLastGap

/-- A source that is read as a document is a rendering of it. -/
theorem rendered_of_read? {document : Document} {source : String}
    (h : Document.read? source = .ok document) : document.Rendered source.toList := by
  unfold Document.read? at h
  dsimp only at h
  split at h
  · rename_i c a hread
    cases h
    exact rendered_of_gives ⟨0, {}, c.offset, a, hread⟩
  · cases h

end MessageSchema.Source
