import Mathlib.Data.List.Chain
import MessageSchema.Proofs.Source.Reading

/-!
# Tokens end where they must

In a rendering no token could have been longer (`IsWhole`): an identifier or an integer goes on with
nothing that would still be one, and no word character stands behind a word. The reason is that of
two tokens one behind the other at least one is a mark (`Apart`), so no word touches another.

- **Lists of tokens** (`Separate`): the tokens of every item of the grammar are apart
  (`separate_section`), and so are those of a document.
- **Texts** (`Lexed`): a text of such tokens is cut into whole tokens (`lexed_of_spaced`).
-/

namespace MessageSchema.Source

open Text

variable {token next s rest g : List Char} {tokens more : List (List Char)} {c : Char}

/-! ## Whole tokens -/

/-- The token goes on with nothing that stands behind it. -/
structure IsWhole (token rest : List Char) : Prop where
  identifier : isIdentifierChars token = true →
    ∀ more, more <+: rest → more ≠ [] → isIdentifierChars (token ++ more) = false
  integer : ∀ n, SpellsInteger token n →
    ∀ more, more <+: rest → more ≠ [] → ∀ m, ¬ SpellsInteger (token ++ more) m
  word : token ∈ ["none".toList, "_".toList, "true".toList, "false".toList] →
    ∀ c ∈ rest.head?, isWordChar c = false

/-- A text cut into tokens, each of them whole, with a gap in front of each and one at the end. -/
inductive Lexed : List (List Char) → List Char → Prop
  | last {g : List Char} : IsLastGap g → Lexed [] g
  | cons {g token s : List Char} {tokens : List (List Char)} :
    IsGap g → IsWhole token s → Lexed tokens s → Lexed (token :: tokens) (g ++ (token ++ s))

/-- Behind its first character an integer is made of word characters. -/
theorem isWordChar_of_spellsInteger {n : Int} (h : SpellsInteger s n) :
    ∀ c ∈ s.tail, isWordChar c = true := by
  have hnumber : ∀ {t : List Char} {k : Nat}, SpellsNumber t k → ∀ c ∈ t, isWordChar c = true := by
    intro t k h c hc
    cases h with
    | decimal h =>
      exact isWordChar_of_isHexDigit (isHexDigit_of_isDigit (isDigit_of_numeral h c hc))
    | hex hx h =>
      simp only [List.mem_cons] at hc
      rcases hc with rfl | rfl | hc
      · decide
      · rcases hx with rfl | rfl <;> decide
      · exact isWordChar_of_isHexDigit (isHexDigit_of_numeral h c hc)
  cases h with
  | unsigned h => exact fun c hc => hnumber h c (List.mem_of_mem_tail hc)
  | negative h => exact hnumber h

theorem ne_nil_of_spellsInteger {n : Int} (h : SpellsInteger s n) : s ≠ [] := by
  cases h with
  | unsigned h =>
    obtain ⟨c, cs, rfl, -⟩ := exists_digit_of_spellsNumber h
    exact List.cons_ne_nil c cs
  | negative _ => exact List.cons_ne_nil _ _

/-- What stands in front of the end of a word is whole. -/
theorem isWhole_of_ends (h : Ends rest) : IsWhole token rest := by
  -- the first character of a longer token would be a word character
  have hlonger : ∀ more, more <+: rest → more ≠ [] → ¬ ∀ c ∈ more, isWordChar c = true := by
    rintro more ⟨t, rfl⟩ hne hword
    obtain ⟨c, cs, rfl⟩ := List.exists_cons_of_ne_nil hne
    have hends : isWordChar c = false := h c rfl
    exact Bool.false_ne_true (hends.symm.trans (hword c List.mem_cons_self))
  refine ⟨fun _ more hmore hne => ?_, fun n hn more hmore hne m hm => ?_, fun _ => h⟩
  · by_contra hidentifier
    have hword := isWordChar_of_isIdentifierChars (by simpa using hidentifier)
    exact hlonger more hmore hne fun c hc => hword c (List.mem_append_right token hc)
  · have hword := isWordChar_of_spellsInteger hm
    rw [List.tail_append_of_ne_nil (ne_nil_of_spellsInteger hn)] at hword
    exact hlonger more hmore hne fun c hc => hword c (List.mem_append_right _ hc)

/-! ## Marks -/

/-- A token of one character that no word has. -/
def IsMark (token : List Char) : Prop :=
  ∃ c, token = [c] ∧ isWordChar c = false

/-- A mark goes on with nothing. -/
theorem isWhole_of_isMark (h : IsMark token) (rest : List Char) : IsWhole token rest := by
  obtain ⟨c, rfl, hc⟩ := h
  refine ⟨fun hidentifier => ?_, fun n hn => ?_, fun hword => ?_⟩
  · have hword := isWordChar_of_isIdentifierChars hidentifier c List.mem_cons_self
    exact absurd (hc.symm.trans hword) Bool.false_ne_true
  · -- a minus sign alone is no integer
    generalize htoken : [c] = token at hn
    cases hn with
    | unsigned hn =>
      obtain ⟨d, ds, rfl, hd⟩ := exists_digit_of_spellsNumber hn
      obtain rfl := (List.cons.inj htoken).1
      have hword := isWordChar_of_isHexDigit (isHexDigit_of_isDigit hd)
      exact absurd (hc.symm.trans hword) Bool.false_ne_true
    | negative hn =>
      obtain ⟨d, ds, rfl, -⟩ := exists_digit_of_spellsNumber hn
      cases (List.cons.inj htoken).2
  · simp only [List.mem_cons, List.not_mem_nil, or_false] at hword
    rcases hword with hword | hword | hword | hword
    · exact absurd (congrArg List.length hword) (by simp)
    · obtain rfl := (List.cons.inj hword).1
      exact absurd hc (by decide)
    · exact absurd (congrArg List.length hword) (by simp)
    · exact absurd (congrArg List.length hword) (by simp)

theorem IsMark.ends_append (h : IsMark token) (rest : List Char) : Ends (token ++ rest) := by
  obtain ⟨c, rfl, hc⟩ := h
  rintro _ ⟨⟩
  exact hc

/-! ## Lists of tokens -/

/-- One of the two tokens is a mark. -/
def Apart (token next : List Char) : Prop :=
  IsMark token ∨ IsMark next

/-- Tokens of which two neighbours are never words. -/
def Separate (tokens : List (List Char)) : Prop :=
  tokens.IsChain Apart

/-- The last of the tokens is a mark. -/
def EndsWithMark (tokens : List (List Char)) : Prop :=
  ∃ before mark, tokens = before ++ [mark] ∧ IsMark mark

theorem Separate.mark_cons {mark : List Char} (hmark : IsMark mark) (h : Separate tokens) :
    Separate (mark :: tokens) :=
  List.isChain_cons.mpr ⟨fun _ _ => .inl hmark, h⟩

theorem Separate.append_mark {mark : List Char} (h : Separate tokens) (hmark : IsMark mark)
    (hmore : Separate more) : Separate (tokens ++ mark :: more) := by
  refine List.isChain_append.mpr ⟨h, hmore.mark_cons hmark, ?_⟩
  rintro _ _ _ ⟨⟩
  exact .inr hmark

theorem Separate.append (h : Separate tokens) (hend : EndsWithMark tokens)
    (hmore : Separate more) : Separate (tokens ++ more) := by
  obtain ⟨before, mark, rfl, hmark⟩ := hend
  refine List.isChain_append.mpr ⟨h, hmore, ?_⟩
  intro token htoken _ _
  obtain rfl : mark = token := by simpa using htoken
  exact .inl hmark

theorem separate_singleton (token : List Char) : Separate [token] :=
  List.isChain_singleton token

section Lists

variable {α : Type} {Written : α → List (List Char) → Prop} {xs : List α} {n : Nat}

/-- A further item of a list stands behind a comma. -/
theorem separate_continued (hw : ∀ x ts, Written x ts → ts.length ≤ n → Separate ts)
    (h : Continued Written xs more) (hn : more.length ≤ n) (htokens : Separate tokens) :
    Separate (tokens ++ more) := by
  have hcomma : IsMark [','] := ⟨',', rfl, by decide⟩
  induction h generalizing tokens with
  | nil => rwa [List.append_nil]
  | comma => exact htokens.append_mark hcomma List.isChain_nil
  | cons hx _ ih =>
    simp only [List.length_cons, List.length_append] at hn
    exact htokens.append_mark hcomma (ih (by omega) (hw _ _ hx (by omega)))

theorem separate_listed (hw : ∀ x ts, Written x ts → ts.length ≤ n → Separate ts)
    (h : Listed Written xs tokens) (hn : tokens.length ≤ n) : Separate tokens := by
  cases h with
  | nil => exact List.isChain_nil
  | cons hx hxs =>
    simp only [List.length_append] at hn
    exact separate_continued hw hxs (by omega) (hw _ _ hx (by omega))

theorem separate_sequence (hw : ∀ x ts, Written x ts → Separate ts ∧ EndsWithMark ts)
    (h : Sequence Written xs tokens) : Separate tokens := by
  induction h with
  | nil => exact List.isChain_nil
  | cons hx _ ih => exact (hw _ _ hx).1.append (hw _ _ hx).2 ih

end Lists

/-! ## Terms and sections -/

theorem separate_brackets {left right : List Char} (hleft : IsMark left) (hright : IsMark right)
    (h : Separate tokens) : Separate (left :: (tokens ++ [right])) :=
  (h.append_mark hright List.isChain_nil).mark_cons hleft

theorem length_lt_brackets (left right : List Char) (inner : List (List Char)) :
    inner.length < (left :: (inner ++ [right])).length := by
  simp only [List.length_cons, List.length_append]
  omega

/-- By induction on the number of tokens: those of an item are fewer than those of the list. -/
theorem separate_term {t : Term} (h : t.Written tokens) : Separate tokens := by
  induction hn : tokens.length using Nat.strongRecOn generalizing t tokens with
  | _ n ih =>
    subst hn
    have hitems : ∀ {items : List Term} {inner : List (List Char)},
        Listed Term.Written items inner → inner.length < tokens.length → Separate inner :=
      fun h hinner => separate_listed
        (fun _ _ hx hlength => ih _ (Nat.lt_of_le_of_lt hlength hinner) hx rfl) h (Nat.le_refl _)
    cases h with
    | none | underscore | true | false | integer _ | text _ => exact separate_singleton _
    | list h =>
      have hinner := hitems h (length_lt_brackets _ _ _)
      exact separate_brackets ⟨'[', rfl, by decide⟩ ⟨']', rfl, by decide⟩ hinner
    | tuple h =>
      have hinner := hitems h (length_lt_brackets _ _ _)
      exact separate_brackets ⟨'(', rfl, by decide⟩ ⟨')', rfl, by decide⟩ hinner

theorem separate_row {items : List Term} (h : RowWritten items tokens) : Separate tokens := by
  cases h with
  | row h =>
    refine separate_brackets ⟨'(', rfl, by decide⟩ ⟨')', rfl, by decide⟩ ?_
    exact separate_listed (fun _ _ hx _ => separate_term hx) h (Nat.le_refl _)

theorem separate_entry {entry : String × Term} (h : EntryWritten entry tokens) :
    Separate tokens ∧ EndsWithMark tokens := by
  cases h with
  | @entry key value inner _ hvalue =>
    have hequals : IsMark ['='] := ⟨'=', rfl, by decide⟩
    have hend : IsMark [';'] := ⟨';', rfl, by decide⟩
    refine ⟨?_, key.toList :: ['='] :: inner, [';'], rfl, hend⟩
    exact (separate_singleton key.toList).append_mark hequals
      ((separate_term hvalue).append_mark hend List.isChain_nil)

/-- In a section no two words are neighbours. -/
theorem separate_section {part : Section} (h : part.Written tokens) :
    Separate tokens ∧ EndsWithMark tokens := by
  have hopen : IsMark ['\x7b'] := ⟨'\x7b', rfl, by decide⟩
  have hclose : IsMark ['\x7d'] := ⟨'\x7d', rfl, by decide⟩
  cases h with
  | @options entries inner h =>
    refine ⟨?_, "options".toList :: ['\x7b'] :: inner, ['\x7d'], rfl, hclose⟩
    have hinner := separate_sequence (fun _ _ => separate_entry) h
    exact (separate_singleton "options".toList).append_mark hopen
      (hinner.append_mark hclose List.isChain_nil)
  | @table columns rows names inner _ hnames hrows =>
    have hleft : IsMark ['('] := ⟨'(', rfl, by decide⟩
    have hright : IsMark [')'] := ⟨')', rfl, by decide⟩
    have hheads : Separate names := by
      refine separate_listed (fun _ _ hx _ => ?_) hnames (Nat.le_refl _)
      cases hx
      exact separate_singleton _
    have hinner : Separate inner :=
      separate_listed (fun _ _ hx _ => separate_row hx) hrows (Nat.le_refl _)
    refine ⟨?_, "table".toList :: ['('] :: (names ++ [')'] :: ['\x7b'] :: inner), ['\x7d'],
      by simp, hclose⟩
    exact (separate_singleton "table".toList).append_mark hleft (hheads.append_mark hright
      ((hinner.append_mark hclose List.isChain_nil).mark_cons hopen))

/-! ## Texts -/

theorem ends_lastGap (h : IsLastGap g) : Ends g := by
  cases h with
  | gap h => simpa using ends_gap_append h (s := []) (by simp [Ends])
  | lineComment h _ =>
    refine ends_gap_append h ?_
    rintro _ ⟨⟩
    decide

/-- Tokens that are apart are whole in a text. -/
theorem lexed_of_spaced (h : Spaced tokens s) (htokens : Separate tokens) (hg : IsLastGap g) :
    Lexed tokens (s ++ g) := by
  induction h with
  | nil => exact .last hg
  | @cons g' token s tokens hg' hs ih =>
    obtain ⟨hfirst, hrest⟩ := List.isChain_cons.mp htokens
    rw [List.append_assoc, List.append_assoc]
    refine .cons hg' ?_ (ih hrest)
    cases hs with
    | nil => exact isWhole_of_ends (ends_lastGap hg)
    | @cons gap next s _ hgap _ =>
      rcases hfirst next rfl with hmark | hmark
      · exact isWhole_of_isMark hmark _
      · rw [List.append_assoc, List.append_assoc]
        exact isWhole_of_ends (ends_gap_append hgap (hmark.ends_append _))

/-- A lexed text is one of spaced tokens with a gap behind them. -/
theorem Lexed.exists_spaced (h : Lexed tokens s) :
    ∃ a g, s = a ++ g ∧ Spaced tokens a ∧ IsLastGap g := by
  induction h with
  | @last g hg => exact ⟨[], g, rfl, .nil, hg⟩
  | @cons g' token _ _ hg' _ _ ih =>
    obtain ⟨a, g, rfl, ha, hg⟩ := ih
    exact ⟨g' ++ (token ++ a), g, by simp, .cons hg' ha, hg⟩

/-- The renderings of a document are the texts of whole tokens of it. -/
theorem rendered_iff_lexed {document : Document} :
    document.Rendered s ↔ ∃ tokens, Sequence Section.Written document tokens ∧ Lexed tokens s := by
  constructor
  · rintro ⟨hsections, hs, hg⟩
    have hseparate := separate_sequence (fun _ _ => separate_section) hsections
    exact ⟨_, hsections, lexed_of_spaced hs hseparate hg⟩
  · rintro ⟨tokens, hsections, h⟩
    obtain ⟨a, g, rfl, hs, hg⟩ := h.exists_spaced
    exact .source hsections hs hg

end MessageSchema.Source
