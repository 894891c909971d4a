import Mathlib.Data.List.Induction
import MessageSchema.Proofs.Source.Lexemes

/-!
# What is taken for a lexeme is one

The converse of splitting off what is written: what a `split…` function takes from a text is a
lexeme of its kind, and it and the rest are the text.

- **Gaps** (`GapTo`, `gapTo_splitGap`): by induction on the length of the text, cut at the first end
  of a comment.
- **Words and identifiers** (`append_of_splitExact`, `append_of_splitWord`,
  `isIdentifierChars_of_splitIdentifier`).
- **Integers** (`spellsInteger_of_splitInteger`): digits stand for some number.
- **Texts** (`spellsText_of_splitText`).
-/

namespace MessageSchema.Source

open Text

variable {s t rest lexeme g body : List Char}

/-! ## Gaps -/

/-- A gap leads up to `rest`; it ends with an open line comment only if nothing is left. -/
def GapTo (s rest : List Char) : Prop :=
  ∃ g, s = g ++ rest ∧ (IsGap g ∨ IsLastGap g ∧ rest = [])

theorem IsGap.append (hg : IsGap g) (ht : IsGap t) : IsGap (g ++ t) := by
  induction hg with
  | nil => exact ht
  | blank hc _ ih => exact .blank hc ih
  | lineComment hbody _ ih =>
    rw [List.cons_append, List.cons_append, List.append_assoc]
    exact .lineComment hbody ih
  | blockComment hbody _ ih =>
    rw [List.cons_append, List.cons_append, List.append_assoc]
    exact .blockComment hbody ih

theorem IsGap.append_last (hg : IsGap g) (ht : IsLastGap t) : IsLastGap (g ++ t) := by
  cases ht with
  | gap ht => exact .gap (hg.append ht)
  | lineComment ht hbody =>
    rw [← List.append_assoc]
    exact .lineComment (hg.append ht) hbody

theorem GapTo.refl (s : List Char) : GapTo s s :=
  ⟨[], rfl, .inl .nil⟩

/-- Gaps follow each other. -/
theorem GapTo.trans (hst : GapTo s t) (ht : GapTo t rest) : GapTo s rest := by
  obtain ⟨g, rfl, hg | ⟨hg, rfl⟩⟩ := hst
  · obtain ⟨g', rfl, hg' | ⟨hg', rfl⟩⟩ := ht
    · exact ⟨g ++ g', (List.append_assoc _ _ _).symm, .inl (hg.append hg')⟩
    · exact ⟨g ++ g', (List.append_assoc _ _ _).symm, .inr ⟨hg.append_last hg', rfl⟩⟩
  · -- nothing is left behind the first gap
    obtain ⟨g', hnil, -⟩ := ht
    obtain ⟨-, rfl⟩ := List.append_eq_nil_iff.mp hnil.symm
    exact ⟨g, rfl, .inr ⟨hg, rfl⟩⟩

theorem IsGap.gapTo (hg : IsGap g) (ht : GapTo t rest) : GapTo (g ++ t) rest :=
  GapTo.trans ⟨g, rfl, .inl hg⟩ ht

theorem GapTo.isLastGap (h : GapTo s []) : IsLastGap s := by
  obtain ⟨g, rfl, hg | ⟨hg, -⟩⟩ := h
  · simpa using IsLastGap.gap hg
  · simpa using hg

/-- A text is cut at the first end of a comment in it. -/
theorem exists_blockComment (h : closesComment s = true) :
    ∃ body rest, s = body ++ '*' :: '/' :: rest ∧ ¬ ['*', '/'] <:+: body := by
  induction s with
  | nil => cases h
  | cons c s ih =>
    by_cases hend : ∃ rest, c :: s = '*' :: '/' :: rest
    · obtain ⟨rest, hrest⟩ := hend
      exact ⟨[], rest, hrest, by simp⟩
    · rw [closesComment.eq_3 _ _ fun more hc hs => hend ⟨more, by rw [hc, hs]⟩] at h
      obtain ⟨body, rest, rfl, hbody⟩ := ih h
      refine ⟨c :: body, rest, rfl, fun hin => ?_⟩
      rcases List.infix_cons_iff.mp hin with hstart | hin
      · obtain ⟨more, hmore⟩ := hstart
        refine hend ⟨more ++ '*' :: '/' :: rest, ?_⟩
        rw [← List.cons_append, ← hmore]
        rfl
      · exact hbody hin

theorem snd_onto (cs : List Char) (split : List Char × List Char) :
    (onto cs split).2 = split.2 :=
  rfl

/-- What splitting off a gap leaves is what a gap leads up to. -/
theorem gapTo_splitGap (s : List Char) : GapTo s (splitGap s).2 := by
  -- a comment is taken away at once, so the induction is on the length
  induction hn : s.length using Nat.strongRecOn generalizing s with
  | _ n ih =>
    subst hn
    by_cases hline : ∃ more, s = '/' :: '/' :: more
    · obtain ⟨more, rfl⟩ := hline
      rw [splitGap, splitGapFrom, snd_onto]
      by_cases hend : '\n' ∈ more
      · obtain ⟨body, rest, rfl, hbody⟩ := List.eq_append_cons_of_mem hend
        rw [splitGapFrom_lineComment hbody, snd_onto]
        have hrest : GapTo rest (splitGap rest).2 := ih _ (by simp; omega) rest rfl
        have hcomment : IsGap ('/' :: '/' :: (body ++ ['\n'])) := .lineComment hbody .nil
        simpa using hcomment.gapTo hrest
      · rw [splitGapFrom_lineComment_end hend]
        exact ⟨_, (List.append_nil _).symm, .inr ⟨.lineComment .nil hend, rfl⟩⟩
    by_cases hblock : ∃ more, s = '/' :: '*' :: more
    · obtain ⟨more, rfl⟩ := hblock
      rw [splitGap, splitGapFrom]
      by_cases hclosed : closesComment more = true
      · obtain ⟨body, rest, rfl, hbody⟩ := exists_blockComment hclosed
        rw [if_pos hclosed, snd_onto, splitGapFrom_blockComment hbody, snd_onto]
        have hrest : GapTo rest (splitGap rest).2 := ih _ (by simp; omega) rest rfl
        have hcomment : IsGap ('/' :: '*' :: (body ++ ['*', '/'])) := .blockComment hbody .nil
        simpa using hcomment.gapTo hrest
      · -- a comment that is not closed is no gap, and nothing is taken
        rw [if_neg hclosed]
        exact .refl _
    cases s with
    | nil => exact .refl []
    | cons c s =>
      rw [splitGap, splitGapFrom.eq_4 c s (fun more hc hs => hline ⟨more, by rw [hc, hs]⟩)
        (fun more hc hs => hblock ⟨more, by rw [hc, hs]⟩)]
      by_cases hc : isGapChar c = true
      · have hblank : c ∈ [' ', '\t', '\r', '\n'] := by
          simpa [isGapChar, or_assoc] using hc
        have hrest : GapTo s (splitGap s).2 := ih _ (by simp) s rfl
        rw [if_pos hc, snd_onto]
        exact (IsGap.blank hblank .nil).gapTo hrest
      · rw [if_neg hc]
        exact .refl _

/-! ## Words and identifiers -/

theorem append_of_splitExact {expected : List Char}
    (h : splitExact expected s = some (lexeme, rest)) : lexeme = expected ∧ s = lexeme ++ rest := by
  obtain ⟨_, hprefix, hparts⟩ := Option.map_eq_some_iff.mp h
  obtain ⟨rfl, rfl⟩ := Prod.mk.inj hparts
  exact ⟨rfl, (List.isPrefixOf?_eq_some_iff_append_eq.mp hprefix).symm⟩

theorem append_of_splitWord {expected : List Char}
    (h : splitWord expected s = some (lexeme, rest)) : lexeme = expected ∧ s = lexeme ++ rest := by
  unfold splitWord at h
  split at h
  · rename_i hexact
    cases h
    exact append_of_splitExact hexact
  · rename_i hexact
    split at h
    · cases h
    · cases h
      exact append_of_splitExact hexact
  · cases h

theorem isIdentifierChars_of_splitIdentifier (h : splitIdentifier s = some (lexeme, rest)) :
    isIdentifierChars lexeme = true ∧ s = lexeme ++ rest := by
  cases s with
  | nil => cases h
  | cons c s =>
    rw [splitIdentifier] at h
    split at h
    · rename_i hc
      cases h
      refine ⟨?_, by rw [List.cons_append, List.takeWhile_append_dropWhile]⟩
      rw [isIdentifierChars, hc, Bool.true_and]
      exact List.all_takeWhile
    · cases h

/-! ## Integers -/

theorem exists_isDigit_of_isHexDigit {c : Char} (h : isHexDigit c = true) :
    ∃ d, d < 16 ∧ IsDigit d c ∧ (c.isDigit = true → d < 10) := by
  have hall : ∀ n < 128, isHexDigit (Char.ofNat n) = true →
      ∃ d, d < 16 ∧ (Char.ofNat n = Nat.digitChar d ∨ Char.ofNat n = (Nat.digitChar d).toUpper) ∧
        ((Char.ofNat n).isDigit = true → d < 10) := by
    decide
  have hcode := isWordChar_iff.mp (isWordChar_of_isHexDigit h)
  have hc : Char.ofNat c.toNat = c := Char.ofNat_toNat c
  have hd := hall c.toNat (by omega)
  rw [hc] at hd
  exact hd h

/-- Digits stand for a number. -/
theorem exists_numeral {base : Nat} (hne : s ≠ [])
    (hdigits : ∀ c ∈ s, ∃ d, d < base ∧ IsDigit d c) : ∃ n, Numeral base s n := by
  induction s using List.reverseRecOn with
  | nil => exact absurd rfl hne
  | append_singleton s c ih =>
    obtain ⟨hs, hc⟩ := List.forall_mem_append.mp hdigits
    obtain ⟨d, hd, hdigit⟩ := hc c (List.mem_singleton_self c)
    by_cases hnil : s = []
    · subst hnil
      exact ⟨d, .digit hd hdigit⟩
    · obtain ⟨n, hn⟩ := ih hnil hs
      exact ⟨_, .snoc hn hd hdigit⟩

theorem exists_numeral_ten (hne : s ≠ []) (hdigits : ∀ c ∈ s, c.isDigit = true) :
    ∃ n, Numeral 10 s n := by
  refine exists_numeral hne fun c hc => ?_
  obtain ⟨d, -, hdigit, hd⟩ := exists_isDigit_of_isHexDigit (isHexDigit_of_isDigit (hdigits c hc))
  exact ⟨d, hd (hdigits c hc), hdigit⟩

theorem exists_numeral_sixteen (hne : s ≠ []) (hdigits : ∀ c ∈ s, isHexDigit c = true) :
    ∃ n, Numeral 16 s n := by
  refine exists_numeral hne fun c hc => ?_
  obtain ⟨d, hd, hdigit, -⟩ := exists_isDigit_of_isHexDigit (hdigits c hc)
  exact ⟨d, hd, hdigit⟩

theorem append_of_splitRun {keep : Char → Bool} (h : splitRun keep s = some (lexeme, rest)) :
    lexeme ≠ [] ∧ (∀ c ∈ lexeme, keep c = true) ∧ s = lexeme ++ rest := by
  unfold splitRun at h
  split at h
  · cases h
  · rename_i hne
    cases h
    exact ⟨by simpa using hne, List.all_eq_true.mp List.all_takeWhile,
      List.takeWhile_append_dropWhile.symm⟩

theorem spellsNumber_of_splitMagnitude (h : splitMagnitude s = some (lexeme, rest)) :
    (∃ n, SpellsNumber lexeme n) ∧ s = lexeme ++ rest := by
  have hdecimal : ∀ {s}, splitRun Char.isDigit s = some (lexeme, rest) →
      (∃ n, SpellsNumber lexeme n) ∧ s = lexeme ++ rest := by
    intro s hrun
    obtain ⟨hne, hdigits, hs⟩ := append_of_splitRun hrun
    obtain ⟨n, hn⟩ := exists_numeral_ten hne hdigits
    exact ⟨⟨n, .decimal hn⟩, hs⟩
  unfold splitMagnitude at h
  split at h
  · rename_i x cs
    split at h
    · rename_i hmark
      cases h
      obtain ⟨hx, hne⟩ := Bool.and_eq_true_iff.mp hmark
      have hdigits : ∀ c ∈ cs.takeWhile isHexDigit, isHexDigit c = true :=
        List.all_eq_true.mp List.all_takeWhile
      obtain ⟨n, hn⟩ := exists_numeral_sixteen (by simpa using hne) hdigits
      refine ⟨⟨n, .hex (by simpa using hx) hn⟩, ?_⟩
      rw [List.cons_append, List.cons_append, List.takeWhile_append_dropWhile]
    · exact hdecimal h
  · exact hdecimal h

/-- An integer that is taken from a source spells a number. -/
theorem spellsInteger_of_splitInteger (h : splitInteger s = some (lexeme, rest)) :
    (∃ n, SpellsInteger lexeme n) ∧ s = lexeme ++ rest := by
  unfold splitInteger at h
  split at h
  · obtain ⟨⟨magnitude, _⟩, hmagnitude, hparts⟩ := Option.map_eq_some_iff.mp h
    obtain ⟨rfl, rfl⟩ := Prod.mk.inj hparts
    obtain ⟨⟨n, hn⟩, rfl⟩ := spellsNumber_of_splitMagnitude hmagnitude
    exact ⟨⟨-n, .negative hn⟩, rfl⟩
  · obtain ⟨⟨n, hn⟩, hs⟩ := spellsNumber_of_splitMagnitude h
    exact ⟨⟨n, .unsigned hn⟩, hs⟩

/-! ## Texts -/

theorem exists_spellsText_escape (c : Char) {s text : List Char} (h : SpellsText s text) :
    ∃ text, SpellsText ('\\' :: c :: s) text := by
  by_cases hc : c ∈ ['n', 't', '0']
  · simp only [List.mem_cons, List.not_mem_nil, or_false] at hc
    rcases hc with rfl | rfl | rfl
    · exact ⟨_, .lineFeed h⟩
    · exact ⟨_, .tab h⟩
    · exact ⟨_, .null h⟩
  · exact ⟨_, .escaped hc h⟩

theorem spellsText_of_splitQuoted (h : splitQuoted s = some (lexeme, rest)) :
    ∃ body text, lexeme = body ++ ['\x22'] ∧ SpellsText body text ∧ s = lexeme ++ rest := by
  fun_induction splitQuoted s generalizing lexeme with
  | case1 => cases h
  | case2 =>
    cases h
    exact ⟨[], [], rfl, .nil, rfl⟩
  | case3 c cs ih =>
    obtain ⟨⟨inner, _⟩, hinner, hparts⟩ := Option.map_eq_some_iff.mp h
    obtain ⟨rfl, rfl⟩ := Prod.mk.inj hparts
    obtain ⟨body, text, rfl, htext, rfl⟩ := ih hinner
    obtain ⟨text', htext'⟩ := exists_spellsText_escape c htext
    exact ⟨_, text', rfl, htext', rfl⟩
  | case4 => cases h
  | case5 c cs hquote hpair hlone ih =>
    obtain ⟨⟨inner, rest⟩, hinner, hparts⟩ := Option.map_eq_some_iff.mp h
    obtain ⟨rfl, rfl⟩ := Prod.mk.inj hparts
    obtain ⟨body, text, rfl, htext, rfl⟩ := ih hinner
    -- a backslash would have taken the character behind it along, or have been the last
    have hbackslash : c ≠ '\\' := by
      intro hc
      cases hrest : body ++ ['\x22'] ++ rest with
      | nil => exact hlone hc hrest
      | cons d ds => exact hpair d ds hc hrest
    exact ⟨c :: body, c :: text, rfl, .plain hquote hbackslash htext, rfl⟩

/-- A text that is taken from a source spells one. -/
theorem spellsText_of_splitText (h : splitText s = some (lexeme, rest)) :
    ∃ body text, lexeme = '\x22' :: (body ++ ['\x22']) ∧ SpellsText body text ∧
      s = lexeme ++ rest := by
  unfold splitText at h
  split at h
  · obtain ⟨⟨inner, _⟩, hinner, hparts⟩ := Option.map_eq_some_iff.mp h
    obtain ⟨rfl, rfl⟩ := Prod.mk.inj hparts
    obtain ⟨body, text, rfl, htext, rfl⟩ := spellsText_of_splitQuoted hinner
    exact ⟨body, text, rfl, htext, rfl⟩
  · cases h

end MessageSchema.Source
