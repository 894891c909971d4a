import MessageSchema.Proofs.Source.Lists
import MessageSchema.Source.Evaluate

/-!
# Every rendering of a document is read

`read?_of_rendered`: a source that a document can be written as is read as that document.

- **Terms** (`readsWritten_term`): by induction on the limit, since the text of an item is shorter
  than the list it stands in. The readers of the other kinds of terms fail at the first character.
- **Sections** (`readsWritten_section`): entries and rows are items of their own kinds.
-/

namespace MessageSchema.Source

open Reader Text

variable {limit : Nat} {c : Char} {s rest : List Char} {tokens : List (List Char)}

theorem Joined.singleton {token : List Char} (h : Joined [token] s) : s = token := by
  cases h with
  | cons h =>
    cases h
    exact List.append_nil _

/-- A token, a gap, and what begins with the next token. -/
theorem Joined.tail {token next : List Char} (h : Joined (token :: next :: tokens) s) :
    ∃ g u, s = token ++ (g ++ u) ∧ IsGap g ∧ Joined (next :: tokens) u := by
  cases h with
  | cons h =>
    cases h with
    | cons hg h => exact ⟨_, _, rfl, hg, .cons h⟩

/-- Tokens between two marks, with a gap before the second mark. -/
theorem Joined.enclosed {left right : List Char} (h : Joined (left :: (tokens ++ [right])) s) :
    ∃ u g, s = left ++ (u ++ (g ++ right)) ∧ Spaced tokens u ∧ IsGap g := by
  cases h with
  | cons h =>
    obtain ⟨u, b, rfl, hu, hb⟩ := h.of_append
    obtain ⟨g, rfl, hg⟩ := hb.singleton
    exact ⟨u, g, rfl, hu, hg⟩

/-! ## First tokens -/

theorem begins_cons (c : Char) (cs : List Char) (more : List (List Char))
    (h : isGapChar c = false ∧ c ≠ '/') : Begins ((c :: cs) :: more) :=
  ⟨c, cs, more, rfl, h⟩

theorem not_isGapChar_of_isWordChar (h : isWordChar c = true) : isGapChar c = false ∧ c ≠ '/' := by
  constructor
  · simp only [isGapChar, Bool.or_eq_false_iff, beq_eq_false_iff_ne]
    refine ⟨⟨⟨?_, ?_⟩, ?_⟩, ?_⟩ <;> rintro rfl <;> exact absurd h (by decide)
  · rintro rfl
    exact absurd h (by decide)

theorem begins_of_isIdentifier {name : String} (h : isIdentifier name = true)
    (more : List (List Char)) : Begins (name.toList :: more) := by
  have hword := isWordChar_of_isIdentifierChars h
  rw [isIdentifier] at h
  cases hname : name.toList with
  | nil =>
    rw [hname] at h
    exact absurd h (by decide)
  | cons c cs =>
    have hc : isWordChar c = true := hword c (by simp [hname])
    exact begins_cons c cs more (not_isGapChar_of_isWordChar hc)

/-- An integer begins with a minus sign or a digit. -/
theorem exists_first_of_spellsInteger {n : Int} (h : SpellsInteger s n) :
    ∃ c cs, s = c :: cs ∧ (c = '-' ∨ c.isDigit = true) := by
  cases h with
  | unsigned h =>
    obtain ⟨c, cs, rfl, hc⟩ := exists_digit_of_spellsNumber h
    exact ⟨c, cs, rfl, .inr hc⟩
  | negative _ => exact ⟨_, _, rfl, .inl rfl⟩

theorem begins_of_spellsInteger {n : Int} (h : SpellsInteger s n) (more : List (List Char)) :
    Begins (s :: more) := by
  obtain ⟨c, cs, rfl, rfl | hc⟩ := exists_first_of_spellsInteger h
  · exact begins_cons _ _ _ (by decide)
  · exact begins_cons _ _ _
      (not_isGapChar_of_isWordChar (isWordChar_of_isHexDigit (isHexDigit_of_isDigit hc)))

/-- A term begins with a token that no gap takes away. -/
theorem begins_term {t : Term} (h : t.Written tokens) : Begins tokens := by
  cases h with
  | integer h => exact begins_of_spellsInteger h []
  | none | underscore | true | false | text _ | list _ | tuple _ =>
    exact begins_cons _ _ _ (by decide)

/-! ## Alternatives that fail -/

theorem not_isPrefix_cons {e : Char} {es : List Char} (h : c ≠ e) : ¬ e :: es <+: c :: s := by
  intro hbegins
  exact h (List.cons_prefix_cons.mp hbegins).1.symm

theorem fails_absentTerm (hn : c ≠ 'n') (hu : c ≠ '_') : Fails absentTerm (c :: s) := by
  refine (Fails.bind (fails_firstOf ?_)).asRule _
  intro p hp
  simp only [List.mem_cons, List.not_mem_nil, or_false] at hp
  rcases hp with rfl | rfl
  · exact fails_lexeme (splitWord_eq_none (not_isPrefix_cons hn))
  · exact fails_lexeme (splitWord_eq_none (not_isPrefix_cons hu))

theorem fails_boolTerm (ht : c ≠ 't') (hf : c ≠ 'f') : Fails boolTerm (c :: s) := by
  refine (Fails.bind (fails_firstOf ?_)).asRule _
  intro p hp
  simp only [List.mem_cons, List.not_mem_nil, or_false] at hp
  rcases hp with rfl | rfl
  · exact fails_lexeme (splitWord_eq_none (not_isPrefix_cons ht))
  · exact fails_lexeme (splitWord_eq_none (not_isPrefix_cons hf))

theorem fails_integerTerm (hminus : c ≠ '-') (hdigit : c.isDigit = false) :
    Fails integerTerm (c :: s) :=
  (fails_lexeme (splitInteger_eq_none hminus hdigit)).bind.asRule _

theorem fails_textTerm (h : c ≠ '\x22') : Fails textTerm (c :: s) :=
  (fails_lexeme (splitText_eq_none h)).bind.asRule _

theorem fails_termItems (rule : Rule) {left right : String} {l : Char} (p : Reader Term)
    (limit : Nat) (hleft : left.toList = [l]) (h : c ≠ l) :
    Fails (termItems rule left right p limit) (c :: s) := by
  refine (Fails.bind (fails_exact ?_)).asRule _
  rw [hleft]
  exact not_isPrefix_cons h

theorem fails_words (h : c ∉ ['n', '_', 't', 'f']) :
    Fails absentTerm (c :: s) ∧ Fails boolTerm (c :: s) := by
  simp only [List.mem_cons, List.not_mem_nil, or_false, not_or] at h
  exact ⟨fails_absentTerm h.1 h.2.1, fails_boolTerm h.2.2.1 h.2.2.2⟩

/-- What begins with a bracket is no literal. -/
theorem fails_literals (h : c ∈ ['[', '(', ']', ')']) :
    Fails absentTerm (c :: s) ∧ Fails boolTerm (c :: s) ∧ Fails integerTerm (c :: s) ∧
      Fails textTerm (c :: s) := by
  have hfirst : c ∉ ['n', '_', 't', 'f'] ∧ c ≠ '-' ∧ c.isDigit = false ∧ c ≠ '\x22' := by
    simp only [List.mem_cons, List.not_mem_nil, or_false] at h
    rcases h with rfl | rfl | rfl | rfl <;> decide
  obtain ⟨habsent, hbool⟩ := fails_words (s := s) hfirst.1
  exact ⟨habsent, hbool, fails_integerTerm hfirst.2.1 hfirst.2.2.1, fails_textTerm hfirst.2.2.2⟩

/-- No term begins with a bracket that closes. -/
theorem fails_term (limit : Nat) (h : c = ']' ∨ c = ')') : Fails (term limit) (c :: s) := by
  cases limit with
  | zero => exact fun _ a => ⟨a, rfl⟩
  | succ limit =>
    obtain ⟨habsent, hbool, hinteger, htext⟩ : Fails absentTerm (c :: s) ∧ _ :=
      fails_literals (by rcases h with rfl | rfl <;> decide)
    have hlist : Fails (termItems .list "[" "]" (term limit) limit) (c :: s) :=
      fails_termItems _ _ _ rfl (by rcases h with rfl | rfl <;> decide)
    have htuple : Fails (termItems .tuple "(" ")" (term limit) limit) (c :: s) :=
      fails_termItems _ _ _ rfl (by rcases h with rfl | rfl <;> decide)
    have hnone : Fails (firstOf ([] : List (Reader Term))) (c :: s) := fun _ a => ⟨a, rfl⟩
    rw [term]
    exact habsent.orElse_fails (hbool.orElse_fails (hinteger.orElse_fails
      (htext.orElse_fails (hlist.bind.orElse_fails (htuple.bind.orElse_fails hnone)))))

theorem noGap_cons (h : isGapChar c = false ∧ c ≠ '/') (s : List Char) : NoGap (c :: s) := by
  rintro _ ⟨⟩
  exact h

theorem ends_cons (h : isWordChar c = false) (s : List Char) : Ends (c :: s) := by
  rintro _ ⟨⟩
  exact h

/-- A bracket that closes ends lists, if no item begins with it. -/
theorem stops_of_closing {α : Type} {p : Reader α} (h : c = ']' ∨ c = ')' ∨ c = '\x7d')
    (hp : Fails p (c :: rest)) : Stops p (c :: rest) where
  noGap := noGap_cons (by rcases h with rfl | rfl | rfl <;> decide) rest
  ends := ends_cons (by rcases h with rfl | rfl | rfl <;> decide) rest
  comma := by
    rintro ⟨⟩
    rcases h with h | h | h <;> exact absurd h (by decide)
  fails := hp

/-! ## Terms -/

/-- The items of a list or tuple are read with their brackets. -/
theorem reads_termItems (hp : ReadsWritten Term.Written (term limit) limit Ends) (rule : Rule)
    {left right : String} (hright : right = "]" ∨ right = ")") {items : List Term}
    (h : Listed Term.Written items tokens)
    (hs : Joined (left.toList :: (tokens ++ [right.toList])) s) (hleft : left.toList ≠ [])
    (hlimit : s.length ≤ limit) (rest : List Char) :
    Reads (termItems rule left right (term limit) limit) (s ++ rest) items rest := by
  obtain ⟨u, g, rfl, hu, hg⟩ := hs.enclosed
  have hstops : Stops (term limit) (right.toList ++ rest) := by
    rcases hright with rfl | rfl
    · exact stops_of_closing (.inl rfl) (fails_term limit (.inl rfl))
    · exact stops_of_closing (.inr (.inl rfl)) (fails_term limit (.inr rfl))
  have hpos : 0 < left.toList.length := List.length_pos_iff.mpr hleft
  simp only [List.length_append] at hlimit
  have hinside := readsInside_listed hp hstops hg h hu (by omega)
  have htext : left.toList ++ (u ++ (g ++ right.toList)) ++ rest =
      left.toList ++ (u ++ (g ++ (right.toList ++ rest))) := by simp
  rw [htext]
  exact (reads_enclosed hinside).asRule rule

/-- One of two words is read, if the second does not begin with the first. -/
theorem reads_eitherWord {first second word : String}
    (h : word = first ∨ word = second ∧ ¬ first.toList <+: second.toList ++ rest)
    (hrest : Ends rest) :
    Reads (firstOf [lexeme (splitWord first.toList), lexeme (splitWord second.toList)])
      (word.toList ++ rest) word.toList rest := by
  rcases h with rfl | ⟨rfl, hne⟩
  · exact (reads_lexeme (splitWord_append _ hrest)).orElse
  · have hfirst := fails_lexeme (splitWord_eq_none hne)
    exact hfirst.orElse (reads_lexeme (splitWord_append _ hrest)).orElse

theorem reads_absentTerm {word : String} (h : word = "none" ∨ word = "_") (hrest : Ends rest) :
    Reads absentTerm (word.toList ++ rest) .absent rest := by
  have hword : Reads (firstOf [lexeme (splitWord "none".toList), lexeme (splitWord "_".toList)])
      (word.toList ++ rest) word.toList rest :=
    reads_eitherWord (h.imp_right fun h => ⟨h, not_isPrefix_cons (by decide)⟩) hrest
  exact (hword.bind (reads_pure Term.absent rest)).asRule _

theorem reads_boolTerm {word : String} (h : word = "true" ∨ word = "false") (hrest : Ends rest) :
    Reads boolTerm (word.toList ++ rest) (.bool (word.toList == "true".toList)) rest := by
  have hword : Reads (firstOf [lexeme (splitWord "true".toList), lexeme (splitWord "false".toList)])
      (word.toList ++ rest) word.toList rest :=
    reads_eitherWord (h.imp_right fun h => ⟨h, not_isPrefix_cons (by decide)⟩) hrest
  exact (hword.bind (reads_pure (Term.bool (word.toList == "true".toList)) rest)).asRule _

theorem reads_integerTerm {spelling : String} {n : Int} (h : SpellsInteger spelling.toList n)
    (hrest : Ends rest) :
    Reads integerTerm (spelling.toList ++ rest) (.integer spelling) rest := by
  have hterm : Reads integerTerm (spelling.toList ++ rest)
      (.integer (String.ofList spelling.toList)) rest :=
    ((reads_lexeme (splitInteger_append h hrest)).returns fun read =>
      Term.integer (String.ofList read)).asRule _
  rwa [String.ofList_toList] at hterm

theorem reads_textTerm {spelling : String} {text : List Char}
    (h : SpellsText spelling.toList text) (rest : List Char) :
    Reads textTerm ('\x22' :: (spelling.toList ++ ['\x22']) ++ rest) (.text spelling) rest := by
  have hterm : Reads textTerm ('\x22' :: (spelling.toList ++ ['\x22']) ++ rest)
      (.text (String.ofList (('\x22' :: (spelling.toList ++ ['\x22'])).drop 1).dropLast)) rest :=
    ((reads_lexeme (splitText_append h rest)).returns fun quoted =>
      Term.text (String.ofList (quoted.drop 1).dropLast)).asRule _
  rwa [List.drop_one, List.tail_cons, List.dropLast_concat, String.ofList_toList] at hterm

section Alternatives

theorem reads_term_absent {word : String} (h : word = "none" ∨ word = "_") (hrest : Ends rest) :
    Reads (term (limit + 1)) (word.toList ++ rest) .absent rest := by
  rw [term]
  exact (reads_absentTerm h hrest).orElse

theorem reads_term_bool {word : String} (h : word = "true" ∨ word = "false") (hrest : Ends rest) :
    Reads (term (limit + 1)) (word.toList ++ rest) (.bool (word.toList == "true".toList)) rest := by
  have habsent : Fails absentTerm (word.toList ++ rest) := by
    rcases h with rfl | rfl <;> exact fails_absentTerm (by decide) (by decide)
  rw [term]
  exact habsent.orElse (reads_boolTerm h hrest).orElse

theorem reads_term_integer {spelling : String} {n : Int} (h : SpellsInteger spelling.toList n)
    (hrest : Ends rest) :
    Reads (term (limit + 1)) (spelling.toList ++ rest) (.integer spelling) rest := by
  obtain ⟨c, cs, hspelling, hc⟩ := exists_first_of_spellsInteger h
  have hfirst : c ∉ ['n', '_', 't', 'f'] := by
    rcases hc with rfl | hc
    · decide
    · simp only [List.mem_cons, List.not_mem_nil, or_false]
      rintro (rfl | rfl | rfl | rfl) <;> exact absurd hc (by decide)
  obtain ⟨habsent, hbool⟩ := fails_words (s := cs ++ rest) hfirst
  rw [← List.cons_append, ← hspelling] at habsent hbool
  rw [term]
  exact habsent.orElse (hbool.orElse (reads_integerTerm h hrest).orElse)

theorem reads_term_text {spelling : String} {text : List Char}
    (h : SpellsText spelling.toList text) (rest : List Char) :
    Reads (term (limit + 1)) ('\x22' :: (spelling.toList ++ ['\x22']) ++ rest) (.text spelling)
      rest := by
  have hothers (u : List Char) : Fails absentTerm ('\x22' :: u) ∧ Fails boolTerm ('\x22' :: u) ∧
      Fails integerTerm ('\x22' :: u) :=
    ⟨fails_absentTerm (by decide) (by decide), fails_boolTerm (by decide) (by decide),
      fails_integerTerm (by decide) (by decide)⟩
  obtain ⟨habsent, hbool, hinteger⟩ := hothers (spelling.toList ++ ['\x22'] ++ rest)
  rw [term]
  exact habsent.orElse (hbool.orElse (hinteger.orElse (reads_textTerm h rest).orElse))

variable {items : List Term} (hp : ReadsWritten Term.Written (term limit) limit Ends)
  (h : Listed Term.Written items tokens)

include hp h

/-- Items in square brackets are read as a list. -/
theorem reads_term_list (hs : Joined (['['] :: (tokens ++ [[']']])) s) (hlimit : s.length ≤ limit)
    (rest : List Char) : Reads (term (limit + 1)) (s ++ rest) (.list items) rest := by
  have hbrackets : Joined ("[".toList :: (tokens ++ ["]".toList])) s := hs
  have hitems := reads_termItems hp .list (.inl rfl) h hbrackets (by decide) hlimit rest
  obtain ⟨u, g, rfl, -⟩ := hs.enclosed
  obtain ⟨habsent, hbool, hinteger, htext⟩ : Fails absentTerm ('[' :: _) ∧ _ :=
    fails_literals (by decide)
  rw [term]
  exact habsent.orElse (hbool.orElse (hinteger.orElse (htext.orElse
    (hitems.returns Term.list).orElse)))

theorem reads_term_tuple (hs : Joined (['('] :: (tokens ++ [[')']])) s) (hlimit : s.length ≤ limit)
    (rest : List Char) : Reads (term (limit + 1)) (s ++ rest) (.tuple items) rest := by
  have hbrackets : Joined ("(".toList :: (tokens ++ [")".toList])) s := hs
  have hitems := reads_termItems hp .tuple (.inr rfl) h hbrackets (by decide) hlimit rest
  obtain ⟨u, g, rfl, -⟩ := hs.enclosed
  obtain ⟨habsent, hbool, hinteger, htext⟩ : Fails absentTerm ('(' :: _) ∧ _ :=
    fails_literals (by decide)
  have hlist (u : List Char) : Fails (termItems .list "[" "]" (term limit) limit) ('(' :: u) :=
    fails_termItems _ _ _ rfl (by decide)
  rw [term]
  exact habsent.orElse (hbool.orElse (hinteger.orElse (htext.orElse ((hlist _).bind.orElse
    (hitems.returns Term.tuple).orElse))))

end Alternatives

/-- Every term is read as it was written. -/
theorem readsWritten_term (limit : Nat) : ReadsWritten Term.Written (term limit) limit Ends := by
  refine ⟨fun _ _ h => begins_term h, ?_⟩
  induction limit with
  | zero =>
    intro _ _ s _ _ _ hlimit
    omega
  | succ limit ih =>
    -- items are read with a limit less by one, since a bracket stands in front of them
    have hp : ReadsWritten Term.Written (term limit) limit Ends := ⟨fun _ _ h => begins_term h, ih⟩
    intro t tokens s rest h hs hlimit hrest
    cases h with
    | none =>
      obtain rfl := hs.singleton
      exact reads_term_absent (.inl rfl) hrest
    | underscore =>
      obtain rfl := hs.singleton
      exact reads_term_absent (.inr rfl) hrest
    | true =>
      obtain rfl := hs.singleton
      exact reads_term_bool (.inl rfl) hrest
    | false =>
      obtain rfl := hs.singleton
      exact reads_term_bool (.inr rfl) hrest
    | integer h =>
      obtain rfl := hs.singleton
      exact reads_term_integer h hrest
    | text h =>
      obtain rfl := hs.singleton
      exact reads_term_text h rest
    | list h => exact reads_term_list hp h hs (by omega) rest
    | tuple h => exact reads_term_tuple hp h hs (by omega) rest

/-! ## Sections -/

theorem reads_identifier {name : String} (h : isIdentifier name = true) (hrest : Ends rest) :
    Reads identifier (name.toList ++ rest) name rest := by
  have hread : Reads identifier (name.toList ++ rest) (String.ofList name.toList) rest :=
    ((reads_lexeme (splitIdentifier_append h hrest)).returns String.ofList).asRule _
  rwa [String.ofList_toList] at hread

theorem fails_identifier (h : isWordStart c = false) : Fails identifier (c :: s) :=
  (fails_lexeme (splitIdentifier_eq_none h)).bind.asRule _

theorem readsWritten_identifier (limit : Nat) :
    ReadsWritten IdentifierWritten identifier limit Ends where
  begins := by
    rintro _ _ ⟨h⟩
    exact begins_of_isIdentifier h []
  reads := by
    rintro _ _ s rest ⟨h⟩ hs _ hrest
    obtain rfl := hs.singleton
    exact reads_identifier h hrest

theorem readsWritten_row (limit : Nat) : ReadsWritten RowWritten (row limit) limit Ends where
  begins := by
    rintro _ _ ⟨_⟩
    exact begins_cons _ _ _ (by decide)
  reads := by
    rintro items _ s rest ⟨h⟩ hs hlimit _
    have hbrackets : Joined ("(".toList :: (_ ++ [")".toList])) s := hs
    exact reads_termItems (readsWritten_term limit) .tuple (.inr rfl) h hbrackets (by decide)
      (by omega) rest

/-- An option is read however it is written. -/
theorem readsWritten_entry (limit : Nat) :
    ReadsWritten EntryWritten (optionEntry limit) limit fun _ => True where
  begins := by
    rintro _ _ ⟨h, _⟩
    exact begins_of_isIdentifier h _
  reads := by
    rintro ⟨key, value⟩ _ s rest ⟨hkey, hvalue⟩ hs hlimit _
    obtain ⟨g₁, u, rfl, hg₁, hu⟩ := hs.tail
    obtain ⟨v, g₃, rfl, hv, hg₃⟩ := hu.enclosed
    obtain ⟨g₂, b, rfl, hg₂, hb⟩ := hv.joined (begins_term hvalue)
    simp only [List.length_append] at hlimit
    have hends : Ends (g₃ ++ ';' :: rest) := ends_gap_append hg₃ (ends_cons (by decide) _)
    have hterm : Reads (term limit) (b ++ (g₃ ++ ';' :: rest)) value (g₃ ++ ';' :: rest) :=
      (readsWritten_term limit).reads value _ b _ hvalue hb (by omega) hends
    have hlast : Reads (gap >>= fun _ => exact ";" >>= fun _ => pure (key, value))
        (g₃ ++ ';' :: rest) (key, value) rest :=
      (reads_gap hg₃ (noGap_cons (by decide) rest)).bind
        ((reads_exact ";" rest).bind (reads_pure (key, value) rest))
    have hafter : Ends (g₁ ++ '=' :: (g₂ ++ (b ++ (g₃ ++ ';' :: rest)))) :=
      ends_gap_append hg₁ (ends_cons (by decide) _)
    have htext : key.toList ++ (g₁ ++ (['='] ++ (g₂ ++ b ++ (g₃ ++ [';'])))) ++ rest =
        key.toList ++ (g₁ ++ '=' :: (g₂ ++ (b ++ (g₃ ++ ';' :: rest)))) := by simp
    rw [htext]
    refine Reads.asRule ((reads_identifier hkey hafter).bind ?_) _
    refine (reads_gap hg₁ (noGap_cons (by decide) _)).bind ((reads_exact "=" _).bind ?_)
    exact (reads_gap hg₂ (hb.noGap (begins_term hvalue) _)).bind (hterm.bind hlast)

/-- The entries and rows of a section end at a brace. -/
theorem stops_of_brace {α : Type} {p : Reader α} (hp : Fails p ('\x7d' :: rest)) :
    Stops p ('\x7d' :: rest) :=
  stops_of_closing (.inr (.inr rfl)) hp

theorem reads_optionsSection {entries : List (String × Term)}
    (h : Sequence EntryWritten entries tokens)
    (hs : Joined ("options".toList :: ['\x7b'] :: (tokens ++ [['\x7d']])) s)
    (hlimit : s.length < limit) (rest : List Char) :
    Reads (optionsSection limit) (s ++ rest) (.options entries) rest := by
  obtain ⟨g₁, u, rfl, hg₁, hu⟩ := hs.tail
  obtain ⟨v, g₂, rfl, hv, hg₂⟩ := hu.enclosed
  simp only [List.length_append] at hlimit
  have hfails : Fails (optionEntry limit) ('\x7d' :: rest) :=
    (fails_identifier (by decide)).bind.asRule _
  have hstops := stops_of_brace hfails
  have hinside : ReadsInside (many gap (optionEntry limit) limit) (v ++ (g₂ ++ '\x7d' :: rest))
      entries ("\x7d".toList ++ rest) :=
    readsInside_sequence (readsWritten_entry limit) (reads_gap hg₂ hstops.noGap) hstops.noGap hfails
      h hv (by omega)
  have htext : "options".toList ++ (g₁ ++ (['\x7b'] ++ (v ++ (g₂ ++ ['\x7d'])))) ++ rest =
      "options".toList ++ (g₁ ++ '\x7b' :: (v ++ (g₂ ++ '\x7d' :: rest))) := by simp
  rw [htext]
  refine Reads.asRule ((reads_exact "options" _).bind ?_) _
  refine (reads_gap hg₁ (noGap_cons (by decide) _)).bind ?_
  exact (reads_enclosed hinside).returns Section.options

theorem reads_columns {columns : List String} {names : List (List Char)} (hne : columns ≠ [])
    (h : Listed IdentifierWritten columns names) (hs : Joined (['('] :: (names ++ [[')']])) s)
    (hlimit : s.length < limit) (rest : List Char) :
    Reads (Source.columns limit) (s ++ rest) columns rest := by
  obtain ⟨v, g, rfl, hv, hg⟩ := hs.enclosed
  simp only [List.length_append] at hlimit
  have hstops : Stops identifier (')' :: rest) :=
    stops_of_closing (.inr (.inl rfl)) (fails_identifier (by decide))
  have hinside : ReadsInside (commaSeparated identifier limit) (v ++ (g ++ ')' :: rest)) columns
      (")".toList ++ rest) :=
    readsInside_commaSeparated (readsWritten_identifier limit) hstops hg h hne hv (by omega)
  have htext : ['('] ++ (v ++ (g ++ [')'])) ++ rest = '(' :: (v ++ (g ++ ')' :: rest)) := by simp
  rw [htext]
  exact (reads_enclosed hinside).asRule _

/-- A table is read however it is written. -/
theorem reads_tableSection {columns : List String} {rows : List (List Term)}
    {names : List (List Char)} (hne : columns ≠ [])
    (hnames : Listed IdentifierWritten columns names) (hrows : Listed RowWritten rows tokens)
    (hs : Joined
      ("table".toList :: ['('] :: (names ++ [')'] :: ['\x7b'] :: (tokens ++ [['\x7d']]))) s)
    (hlimit : s.length < limit) (rest : List Char) :
    Reads (tableSection limit) (s ++ rest) (.table columns rows) rest := by
  obtain ⟨g₁, u, rfl, hg₁, hu⟩ := hs.tail
  have hparts : ['('] :: (names ++ [')'] :: ['\x7b'] :: (tokens ++ [['\x7d']])) =
      (['('] :: (names ++ [[')']])) ++ (['\x7b'] :: (tokens ++ [['\x7d']])) := by simp
  rw [hparts] at hu
  obtain ⟨v, w, rfl, hv, hw⟩ := hu.of_append (begins_cons _ _ _ (by decide))
  obtain ⟨g₂, b, rfl, hg₂, hb⟩ := hw.joined (begins_cons _ _ _ (by decide))
  obtain ⟨r, g₃, rfl, hr, hg₃⟩ := hb.enclosed
  simp only [List.length_append] at hlimit
  have hfails : Fails (row limit) ('\x7d' :: rest) := fails_termItems _ _ _ rfl (by decide)
  have hinside : ReadsInside ((commaSeparated (row limit) limit).orElse (pure []))
      (r ++ (g₃ ++ '\x7d' :: rest)) rows ("\x7d".toList ++ rest) :=
    readsInside_listed (readsWritten_row limit) (stops_of_brace hfails) hg₃ hrows hr (by omega)
  have htext : "table".toList ++ (g₁ ++ (v ++ (g₂ ++ (['\x7b'] ++ (r ++ (g₃ ++ ['\x7d'])))))) ++
      rest = "table".toList ++ (g₁ ++ (v ++ (g₂ ++ '\x7b' :: (r ++ (g₃ ++ '\x7d' :: rest))))) := by
    simp
  rw [htext]
  refine Reads.asRule ((reads_exact "table" _).bind ?_) _
  refine (reads_gap hg₁ (hv.noGap (begins_cons _ _ _ (by decide)) _)).bind ?_
  refine (reads_columns hne hnames hv (by omega) _).bind ?_
  refine (reads_gap hg₂ (noGap_cons (by decide) _)).bind ?_
  exact (reads_enclosed hinside).returns (Section.table columns)

/-- Every section is read as it was written, whatever follows. -/
theorem readsWritten_section (limit : Nat) :
    ReadsWritten Section.Written (firstOf [optionsSection limit, tableSection limit]) limit
      fun _ => True where
  begins := by
    rintro _ _ (_ | _)
    · exact begins_cons _ _ _ (by decide)
    · exact begins_cons _ _ _ (by decide)
  reads := by
    intro _ _ s rest h hs hlimit _
    cases h with
    | options hentries => exact (reads_optionsSection hentries hs hlimit rest).orElse
    | table hne hnames hrows =>
      have htable := reads_tableSection hne hnames hrows hs hlimit rest
      obtain ⟨g, u, rfl, -⟩ := hs.tail
      -- the reader of options fails at the first letter
      have hother : ¬ "options".toList <+: "table".toList ++ (g ++ u) ++ rest :=
        not_isPrefix_cons (by decide)
      have hoptions : Fails (optionsSection limit) ("table".toList ++ (g ++ u) ++ rest) :=
        (fails_exact hother).bind.asRule _
      exact hoptions.orElse htable.orElse

/-- A document is read however it is rendered. -/
theorem reads_document {document : Document} (h : document.Rendered s) (hlimit : s.length < limit) :
    Reads (Source.document limit) s document [] := by
  obtain ⟨hsections, hs, hg⟩ := h
  have hfails : Fails (firstOf [optionsSection limit, tableSection limit]) [] :=
    (Fails.asRule (fails_exact (by decide)).bind _).orElse_fails
      ((Fails.asRule (fails_exact (by decide)).bind _).orElse_fails fun _ a => ⟨a, rfl⟩)
  have hend : Reads endOfInput [] () [] := fun offset a => ⟨offset, a, rfl⟩
  simp only [List.length_append] at hlimit
  obtain ⟨before, after, hbefore, hmany, hafter⟩ :=
    readsInside_sequence (readsWritten_section limit) (reads_gap_last hg) (by simp [NoGap]) hfails
      hsections hs (by omega)
  exact (hbefore.bind (hmany.bind (hafter.bind (hend.bind (reads_pure document []))))).asRule _

/-- A rendering of a document is read as this document. -/
theorem read?_of_rendered {document : Document} {source : String}
    (h : document.Rendered source.toList) : Document.read? source = .ok document := by
  have hreads : Reads (Source.document (source.toList.length + 1)) source.toList document [] :=
    reads_document h (Nat.lt_succ_self _)
  obtain ⟨offset, a, hread⟩ := hreads 0 {}
  unfold Document.read?
  dsimp only
  rw [hread]

end MessageSchema.Source
