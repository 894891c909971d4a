import MessageSchema.Proofs.Text.Words

/-!
# The tokens of a type

A type is written as words and stars. Blank space may stand anywhere between them and has to stand
between two words.

- **Writing** (`Written tokens s`): the text holds the tokens in their order, with blank space
  around them. A text has one list of tokens only, which `tokens?` finds (`written_iff`).
- **Parts** (`Written.split`): what stands around one of the tokens.
- **Words** (`Written.words_eq`): without stars, the tokens are the words between the blanks.
-/

namespace MessageSchema.Memory

open Text

/-- A token of a type. -/
inductive Token where
  | word (chars : List Char)
  | star
deriving DecidableEq, Repr

namespace Token

/-- The characters of a token. -/
def chars : Token → List Char
  | .word chars => chars
  | .star => ['*']

/-- A word has one word character or more. -/
def Valid : Token → Prop
  | .word chars => chars ≠ [] ∧ ∀ c ∈ chars, isWordChar c = true
  | .star => True

variable {t : Token} {c : Char}

theorem Valid.chars_ne_nil (h : t.Valid) : t.chars ≠ [] := by
  cases t with
  | word => exact h.1
  | star => exact List.cons_ne_nil _ _

theorem Valid.isWordChar (h : t.Valid) (hstar : t ≠ .star) (hc : c ∈ t.chars) :
    isWordChar c = true := by
  cases t with
  | word => exact h.2 c hc
  | star => exact absurd rfl hstar

theorem Valid.isBlank (h : t.Valid) : ∀ c ∈ t.chars, isBlank c = false := by
  cases t with
  | word => exact fun c hc => not_isBlank_of_isWordChar (h.2 c hc)
  | star => exact List.forall_mem_singleton.mpr (by decide)

end Token

/-- The text is written with the tokens. -/
inductive Written : List Token → List Char → Prop
  | nil {gap : List Char} : Blank gap → Written [] gap
  | cons {gap rest : List Char} {t : Token} {tokens : List Token} : Blank gap → t.Valid →
    (t ≠ .star → ∀ c ∈ rest.head?, isWordChar c = false) → Written tokens rest →
    Written (t :: tokens) (gap ++ t.chars ++ rest)

/-! ## Reading the tokens -/

/-- The token of a word, if there is one. -/
def wordToken (word : List Char) : List Token :=
  if word.isEmpty then [] else [.word word]

/-- `tokens?` behind a word that has already begun. -/
def tokensAfter (word : List Char) : List Char → Option (List Token)
  | [] => some (wordToken word)
  | c :: cs =>
    if isWordChar c then tokensAfter (word ++ [c]) cs
    else if isBlank c then (tokensAfter [] cs).map (wordToken word ++ ·)
    else if c = '*' then (tokensAfter [] cs).map (wordToken word ++ .star :: ·)
    else none

/-- The tokens of a text, if it is written with tokens. -/
def tokens? (s : List Char) : Option (List Token) :=
  tokensAfter [] s

variable {tokens front back : List Token} {t : Token} {s word gap rest : List Char} {c : Char}

theorem not_isWordChar_of_isBlank (h : isBlank c = true) : isWordChar c = false := by
  by_contra hword
  rw [not_isBlank_of_isWordChar (by simpa using hword)] at h
  cases h

/-- Word characters go on with the word in front of them. -/
theorem tokensAfter_append (hword : ∀ c ∈ s, isWordChar c = true) (rest : List Char) :
    tokensAfter word (s ++ rest) = tokensAfter (word ++ s) rest := by
  induction s generalizing word with
  | nil => rw [List.nil_append, List.append_nil]
  | cons c s ih =>
    obtain ⟨hc, hs⟩ := List.forall_mem_cons.mp hword
    rw [List.cons_append, tokensAfter, if_pos hc, ih hs, List.append_assoc, List.singleton_append]

/-- A word ends where no word character follows. -/
theorem tokensAfter_eq (h : ∀ c ∈ s.head?, isWordChar c = false) :
    tokensAfter word s = (tokens? s).map (wordToken word ++ ·) := by
  rcases s with _ | ⟨c, s⟩
  · simp [tokens?, tokensAfter, wordToken]
  · have hc : ¬ isWordChar c = true := by simp [h c rfl]
    have hnil : wordToken [] = [] := rfl
    simp only [tokens?, tokensAfter, if_neg hc, hnil, List.nil_append]
    split
    · rw [Option.map_id']
    split
    · rw [Option.map_map]
      rfl
    · rfl

/-- Blank space in front makes no token. -/
theorem tokens?_blank_append (hgap : Blank gap) (s : List Char) :
    tokens? (gap ++ s) = tokens? s := by
  induction gap with
  | nil => rfl
  | cons c gap ih =>
    obtain ⟨hc, hgap⟩ := List.forall_mem_cons.mp hgap
    have hword : ¬ isWordChar c = true := by simp [not_isWordChar_of_isBlank hc]
    rw [List.cons_append, tokens?, tokensAfter, if_neg hword, if_pos hc, ← tokens?, ih hgap]
    exact Option.map_id'

theorem tokens?_star (s : List Char) : tokens? ('*' :: s) = (tokens? s).map (.star :: ·) := by
  rw [tokens?, tokensAfter, if_neg (by decide), if_neg (by decide), if_pos rfl]
  rfl

/-- What is written with tokens is read as them. -/
theorem Written.tokens?_eq (h : Written tokens s) : tokens? s = some tokens := by
  induction h with
  | nil hgap =>
    have htokens := tokens?_blank_append hgap []
    rwa [List.append_nil] at htokens
  | @cons gap rest t tokens hgap hvalid hrest _ ih =>
    rw [List.append_assoc, tokens?_blank_append hgap]
    cases t with
    | word word =>
      have hnonempty : word.isEmpty = false := by simpa using hvalid.1
      rw [Token.chars, tokens?, tokensAfter_append hvalid.2, List.nil_append,
        tokensAfter_eq (hrest nofun), ih, wordToken, hnonempty]
      rfl
    | star =>
      rw [Token.chars, List.singleton_append, tokens?_star, ih]
      rfl

theorem Written.blank_append (hgap : Blank gap) (h : Written tokens s) :
    Written tokens (gap ++ s) := by
  cases h with
  | nil hs => exact .nil (hgap.append hs)
  | cons hs hvalid hrest h =>
    rw [← List.append_assoc, ← List.append_assoc]
    exact .cons (hgap.append hs) hvalid hrest h

/-- A word in front of a text that does not go on with it is a token more. -/
theorem Written.wordToken_append (h : Written tokens s) (hword : ∀ c ∈ word, isWordChar c = true)
    (hs : ∀ c ∈ s.head?, isWordChar c = false) :
    Written (wordToken word ++ tokens) (word ++ s) := by
  unfold wordToken
  split
  · rename_i hempty
    rw [List.isEmpty_iff.mp hempty]
    exact h
  · rename_i hne
    exact .cons (t := .word word) blank_nil ⟨by simpa using hne, hword⟩ (fun _ => hs) h

/-- What is read as tokens is written with them. -/
theorem written_of_tokensAfter (hword : ∀ c ∈ word, isWordChar c = true)
    (h : tokensAfter word s = some tokens) : Written tokens (word ++ s) := by
  induction s generalizing word tokens with
  | nil =>
    cases h
    have hnil : Written [] [] := .nil blank_nil
    simpa using hnil.wordToken_append hword (by simp)
  | cons c s ih =>
    -- the next character goes on with the word, or ends it as a blank or a star
    rw [tokensAfter] at h
    split at h
    · rename_i hc
      have hlonger := List.forall_mem_append.mpr ⟨hword, List.forall_mem_singleton.mpr hc⟩
      simpa using ih hlonger h
    rename_i hc
    have hhead : ∀ d ∈ (c :: s).head?, isWordChar d = false := by simpa using hc
    split at h
    · rename_i hblank
      obtain ⟨later, hlater, rfl⟩ := Option.map_eq_some_iff.mp h
      have hrest : Written later ([c] ++ s) :=
        (ih (by simp) hlater).blank_append (List.forall_mem_singleton.mpr hblank)
      exact hrest.wordToken_append hword hhead
    split at h
    · rename_i hstar
      subst hstar
      obtain ⟨later, hlater, rfl⟩ := Option.map_eq_some_iff.mp h
      have hrest : Written (.star :: later) ('*' :: s) :=
        .cons blank_nil trivial (fun hne => absurd rfl hne) (ih (by simp) hlater)
      exact hrest.wordToken_append hword hhead
    · cases h

/-- The tokens of a text are those that are read. -/
theorem written_iff : Written tokens s ↔ tokens? s = some tokens :=
  ⟨Written.tokens?_eq, fun h => written_of_tokensAfter (by simp) h⟩

instance (tokens : List Token) (s : List Char) : Decidable (Written tokens s) :=
  decidable_of_iff _ written_iff.symm

namespace Written

theorem valid (h : Written tokens s) : ∀ t ∈ tokens, t.Valid := by
  induction h with
  | nil => simp
  | cons _ hvalid _ _ ih => exact List.forall_mem_cons.mpr ⟨hvalid, ih⟩

/-- What is not blank stands in a token. -/
theorem exists_token (h : Written tokens s) (hc : c ∈ s) (hblank : isBlank c = false) :
    ∃ t ∈ tokens, c ∈ t.chars := by
  induction h with
  | nil hgap => exact absurd hc (hgap.not_mem hblank)
  | cons hgap _ _ _ ih =>
    rw [List.append_assoc, List.mem_append, List.mem_append] at hc
    obtain hc | hc | hc := hc
    · exact absurd hc (hgap.not_mem hblank)
    · exact ⟨_, List.mem_cons_self, hc⟩
    · obtain ⟨t, ht, hc⟩ := ih hc
      exact ⟨t, List.mem_cons_of_mem _ ht, hc⟩

/-- What is not part of a word is blank or a star. -/
theorem isBlank_or_star (h : Written tokens s) (hc : c ∈ s) (hword : isWordChar c = false) :
    isBlank c = true ∨ c = '*' ∧ .star ∈ tokens := by
  by_contra hneither
  obtain ⟨hblank, hstar⟩ := not_or.mp hneither
  obtain ⟨t, ht, hmem⟩ := h.exists_token hc (by simpa using hblank)
  cases t with
  | word word =>
    rw [(h.valid _ ht).isWordChar nofun hmem] at hword
    cases hword
  | star => exact hstar ⟨List.mem_singleton.mp hmem, ht⟩

/-- What stands around a token: no word goes on into a word or out of it. -/
theorem split (h : Written (front ++ t :: back) s) : ∃ before rest,
    s = before ++ t.chars ++ rest ∧ Written back rest ∧ (t ≠ .star →
      (∀ c ∈ before.getLast?, isWordChar c = false) ∧ ∀ c ∈ rest.head?, isWordChar c = false) := by
  induction front generalizing s with
  | nil =>
    cases h with
    | @cons gap rest _ _ hgap _ hrest h =>
      refine ⟨gap, rest, rfl, h, fun hstar => ⟨fun c hc => ?_, hrest hstar⟩⟩
      exact not_isWordChar_of_isBlank (hgap c (List.mem_of_getLast? hc))
  | cons first front ih =>
    cases h with
    | @cons gap _ _ _ hgap _ hfirst h =>
      have ht := h.valid t (by simp)
      obtain ⟨before, rest, rfl, hback, hbounds⟩ := ih h
      refine ⟨gap ++ first.chars ++ before, rest, by simp only [List.append_assoc], hback,
        fun hstar => ⟨fun c hc => ?_, (hbounds hstar).2⟩⟩
      rcases List.eq_nil_or_concat' before with rfl | ⟨start, d, rfl⟩
      · -- a word cannot go on into the token, and a star is no part of a word
        obtain ⟨d, chars, hchars⟩ := List.exists_cons_of_ne_nil ht.chars_ne_nil
        have hd : isWordChar d = true := ht.isWordChar hstar (by simp [hchars])
        cases first with
        | word =>
          have hnot := hfirst nofun d (by simp [hchars])
          rw [hd] at hnot
          cases hnot
        | star =>
          obtain rfl : '*' = c := by simpa [Token.chars] using hc
          decide
      · rw [← List.append_assoc, List.getLast?_concat] at hc
        exact (hbounds hstar).1 c (by simpa using hc)

/-- A text without blank space in front begins with its first token. -/
theorem exists_first (h : Written tokens s) (hc : c ∈ s.head?) (hblank : isBlank c = false) :
    ∃ t later rest, tokens = t :: later ∧ s = t.chars ++ rest ∧ Written later rest ∧
      (t ≠ .star → ∀ c ∈ rest.head?, isWordChar c = false) := by
  cases h with
  | nil hgap => exact absurd (List.mem_of_mem_head? hc) (hgap.not_mem hblank)
  | @cons gap rest t later hgap _ hrest h =>
    rcases gap with _ | ⟨d, gap⟩
    · exact ⟨t, later, rest, rfl, rfl, h, hrest⟩
    · obtain rfl : d = c := by simpa using hc
      exact absurd List.mem_cons_self (hgap.not_mem hblank)

/-- Behind a word there is blank space, if there are no more stars. -/
theorem isBlank_head (h : Written tokens s) (hstars : .star ∉ tokens)
    (hs : ∀ c ∈ s.head?, isWordChar c = false) : ∀ c ∈ s.head?, isBlank c = true := by
  intro c hc
  have hcases := h.isBlank_or_star (List.mem_of_mem_head? hc) (hs c hc)
  exact hcases.resolve_right fun hstar => hstars hstar.2

/-- Without stars the tokens are the words of the text. -/
theorem words_eq (h : Written tokens s) (hstars : .star ∉ tokens) :
    words s = tokens.map Token.chars := by
  induction h with
  | nil hgap => exact words_eq_nil.mpr hgap
  | cons hgap hvalid hrest h ih =>
    obtain ⟨hfirst, hstars⟩ := not_or.mp (List.mem_cons.not.mp hstars)
    have hhead := h.isBlank_head hstars (hrest (Ne.symm hfirst))
    have hword := words_eq_singleton hvalid.chars_ne_nil hvalid.isBlank
    rw [List.append_assoc, words_blank_append hgap, words_append _ hhead, hword, ih hstars]
    rfl

end Written

end MessageSchema.Memory
