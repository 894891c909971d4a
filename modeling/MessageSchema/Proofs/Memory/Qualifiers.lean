import MessageSchema.Memory.Layout
import MessageSchema.Proofs.Memory.Scalar
import MessageSchema.Proofs.Memory.Tokens

/-!
# Qualifiers and the scalar of a type

The scalar of a type is meant to be that of its tokens without `const` and `volatile`
(`DataModel.scalarOf?`). It is cut into words at blank space only, and a word is a qualifier as a
whole or not at all. So it is the scalar of the other tokens (`scalar?_eq`), except where a
qualifier stands directly behind the last star (`QualifiedStar`): that type has no scalar
(`scalar?_eq_none`).
-/

namespace MessageSchema.Memory

open Text

/-! ## Qualifiers -/

/-- A word that says nothing about the layout of a type. -/
def isQualifier (word : List Char) : Bool :=
  word == "const".toList || word == "volatile".toList

/-- The tokens that say something about the layout of a type. -/
def plainTokens (tokens : List Token) : List Token :=
  tokens.filter fun t => !isQualifier t.chars

/-- What stands behind the last star of a text. -/
def behindLastStar (s : List Char) : List Char :=
  (s.reverse.takeWhile (· != '*')).reverse

/-- The last token that is no qualifier is a star, and a qualifier stands directly behind it. -/
def QualifiedStar (tokens : List Token) (s : List Char) : Prop :=
  (plainTokens tokens).getLast? = some .star ∧
    (behindLastStar s).head?.any (fun c => !isBlank c) = true

instance (tokens : List Token) (s : List Char) : Decidable (QualifiedStar tokens s) :=
  inferInstanceAs (Decidable (_ ∧ _))

/-- The scalar that tokens without qualifiers mean: a pointer behind the last star, otherwise the
arithmetic type spelled with their words. -/
def DataModel.scalarOf? (m : DataModel) (tokens : List Token) : Option Scalar :=
  if tokens.getLast? = some .star then some ⟨.pointer, m.wordSize, m.wordSize⟩
  else
    (arithmeticType? (String.ofList ([' '].intercalate (tokens.map Token.chars)))).map
      fun (kind, extent) => ⟨kind, m.extent extent, min (m.extent extent) m.maxAlign⟩

variable {m : DataModel} {tokens others quals : List Token} {t : Token} {type other : String}
  {s before word rest : List Char}

theorem isWordChar_of_isQualifier (h : isQualifier word = true) {c : Char} (hc : c ∈ word) :
    isWordChar c = true := by
  have hletters : word.all isWordChar = true := by
    simp only [isQualifier, Bool.or_eq_true, beq_iff_eq] at h
    rcases h with rfl | rfl <;> rfl
  exact List.all_eq_true.mp hletters c hc

theorem isQualifier_eq_false {c : Char} (hc : c ∈ word) (hword : isWordChar c = false) :
    isQualifier word = false := by
  by_contra h
  rw [isWordChar_of_isQualifier (by simpa using h) hc] at hword
  cases hword

theorem typeWords_eq (type : String) :
    typeWords type = (words type.toList).filter fun w => !isQualifier w := by
  simp only [typeWords, isQualifier, Bool.not_or, bne]

theorem star_not_mem_of_isQualifier (h : ∀ q ∈ quals, isQualifier q.chars = true) :
    .star ∉ quals := fun hstar => absurd (h _ hstar) (by decide)

theorem star_mem_plainTokens (h : .star ∈ tokens) : .star ∈ plainTokens tokens :=
  List.mem_filter.mpr ⟨h, by decide⟩

/-- Behind the last token that is no qualifier there are only qualifiers. -/
theorem exists_split_plainTokens (h : (plainTokens tokens).getLast? = some t) :
    isQualifier t.chars = false ∧ ∃ front quals, tokens = front ++ t :: quals ∧
      ∀ q ∈ quals, isQualifier q.chars = true := by
  rw [plainTokens, List.getLast?_filter, List.find?_eq_some_iff_append] at h
  obtain ⟨ht, quals, front, hreverse, hquals⟩ := h
  refine ⟨by simpa using ht, front.reverse, quals.reverse, ?_, by simpa using hquals⟩
  rw [← List.reverse_reverse tokens, hreverse]
  simp

/-- Behind the last star there are only qualifiers, if it is the last token that is none. -/
theorem exists_behindLastStar (h : Written tokens s)
    (hlast : (plainTokens tokens).getLast? = some .star) : ∃ before quals,
    s = before ++ '*' :: behindLastStar s ∧ Written quals (behindLastStar s) ∧
      ∀ q ∈ quals, isQualifier q.chars = true := by
  obtain ⟨-, front, quals, rfl, hquals⟩ := exists_split_plainTokens hlast
  obtain ⟨before, rest, rfl, hwritten, -⟩ := h.split
  have hrest : ∀ c ∈ rest, (c != '*') = true := by
    intro c hc
    by_contra hstar
    obtain rfl : c = '*' := by simpa using hstar
    obtain ⟨q, hq, hmem⟩ := hwritten.exists_token hc (by decide)
    exact absurd (isWordChar_of_isQualifier (hquals q hq) hmem) (by decide)
  have hbehind : behindLastStar (before ++ '*' :: rest) = rest := lastRun_append (by decide) hrest
  simp only [Token.chars, List.append_assoc, List.singleton_append, hbehind]
  exact ⟨before, quals, rfl, hwritten, hquals⟩

/-! ## The end of a plain type -/

/-- The last of several words ends the text of them all. -/
theorem exists_intercalate_concat (sep word : List Char) (front : List (List Char)) :
    ∃ start, sep.intercalate (front ++ [word]) = start ++ word := by
  induction front with
  | nil => exact ⟨[], by simp [List.intercalate]⟩
  | cons first front ih =>
    obtain ⟨start, hstart⟩ := ih
    have hne : front ++ [word] ≠ [] := by simp
    refine ⟨first ++ sep ++ start, ?_⟩
    rw [List.cons_append, List.intercalate_cons_of_ne_nil hne, hstart]
    simp only [List.append_assoc]

/-- A plain type ends with what stands in front of its last qualifiers, if that is no qualifier
together with the characters before it. -/
theorem exists_plainType_eq (htype : type.toList = before ++ word ++ rest) (hne : word ≠ [])
    (hword : ∀ c ∈ word, isBlank c = false) (hrest : ∀ c ∈ rest.head?, isBlank c = true)
    (hwritten : Written quals rest) (hquals : ∀ q ∈ quals, isQualifier q.chars = true)
    (hkept : ∀ first, first <:+ before → isQualifier (first ++ word) = false) :
    ∃ start, plainType type = start ++ word := by
  obtain ⟨front, first, hwords, hfirst⟩ := exists_words_append before hne hword
  have hdropped : (quals.map Token.chars).filter (fun w => !isQualifier w) = [] := by
    simpa [List.filter_eq_nil_iff] using hquals
  have htypeWords :
      typeWords type = front.filter (fun w => !isQualifier w) ++ [first ++ word] := by
    rw [typeWords_eq, htype, words_append _ hrest, hwords,
      hwritten.words_eq (star_not_mem_of_isQualifier hquals), List.filter_append,
      List.filter_append, hdropped, List.append_nil]
    simp [hkept first hfirst]
  obtain ⟨start, hstart⟩ := exists_intercalate_concat [' '] (first ++ word)
    (front.filter fun w => !isQualifier w)
  exact ⟨start ++ first, by rw [plainType, htypeWords, hstart, List.append_assoc]⟩

/-- No qualifier glued to the last star: a plain type ends with that star. -/
theorem exists_plainType_eq_star (h : Written tokens type.toList)
    (hlast : (plainTokens tokens).getLast? = some .star)
    (hfree : ¬ QualifiedStar tokens type.toList) : ∃ start, plainType type = start ++ ['*'] := by
  obtain ⟨before, quals, htype, hwritten, hquals⟩ := exists_behindLastStar h hlast
  have hrest : ∀ c ∈ (behindLastStar type.toList).head?, isBlank c = true := by
    intro c hc
    by_contra hblank
    exact hfree ⟨hlast, (Option.any_eq_true _ _).mpr ⟨c, hc, by simpa using hblank⟩⟩
  have hstar : ∀ c ∈ ['*'], isBlank c = false := List.forall_mem_singleton.mpr (by decide)
  rw [List.append_cons] at htype
  refine exists_plainType_eq htype (List.cons_ne_nil _ _) hstar hrest hwritten hquals fun _ _ => ?_
  exact isQualifier_eq_false (c := '*') (by simp) (by decide)

/-- A plain type ends with its last word. -/
theorem exists_plainType_eq_word (h : Written tokens type.toList)
    (hlast : (plainTokens tokens).getLast? = some t) (hstar : t ≠ .star) :
    ∃ start, plainType type = start ++ t.chars := by
  obtain ⟨ht, front, quals, rfl, hquals⟩ := exists_split_plainTokens hlast
  obtain ⟨before, rest, htype, hwritten, hbounds⟩ := h.split
  obtain ⟨hbefore, hrest⟩ := hbounds hstar
  have hvalid := h.valid t (by simp)
  have hblank := hwritten.isBlank_head (star_not_mem_of_isQualifier hquals) hrest
  refine exists_plainType_eq htype hvalid.chars_ne_nil hvalid.isBlank hblank hwritten hquals ?_
  intro first hfirst
  rcases List.eq_nil_or_concat' first with rfl | ⟨start, c, rfl⟩
  · exact ht
  · -- the character in front of the word is none of a word
    obtain ⟨front', rfl⟩ := hfirst
    exact isQualifier_eq_false (c := c) (by simp) (hbefore c (by simp [← List.append_assoc]))

/-! ## The scalar of a type -/

/-- No arithmetic type has a star. -/
theorem arithmeticType?_eq_none (h : '*' ∈ s) : arithmeticType? (String.ofList s) = none := by
  by_contra hsome
  obtain ⟨found, hfound⟩ := Option.ne_none_iff_exists'.mp hsome
  rcases isWordChar_of_arithmeticType? hfound h with hword | hspace
  · exact absurd hword (by decide)
  · exact absurd hspace (by decide)

theorem getLast?_ne_star (hne : word ≠ []) (hword : ∀ c ∈ word, isWordChar c = true) :
    (s ++ word).getLast? ≠ some '*' := by
  intro h
  rw [List.getLast?_append_of_ne_nil _ hne] at h
  exact absurd (hword _ (List.mem_of_getLast? h)) (by decide)

/-- Dropping qualifiers drops no star. -/
theorem star_mem_plainType (h : Written tokens type.toList) (hstar : .star ∈ tokens) :
    '*' ∈ plainType type := by
  obtain ⟨front, back, rfl⟩ := List.append_of_mem hstar
  obtain ⟨before, rest, htype, -⟩ := h.split
  have hmem : '*' ∈ type.toList := by simp [htype, Token.chars]
  obtain ⟨w, hw, hstarw⟩ := exists_word hmem (by decide)
  refine mem_intercalate (w := w) ?_ hstarw
  rw [typeWords_eq]
  exact List.mem_filter.mpr ⟨hw, by simp [isQualifier_eq_false hstarw (by decide)]⟩

/-- Without stars a plain type is its plain words with single spaces between them. -/
theorem plainType_eq (h : Written tokens type.toList) (hstars : .star ∉ tokens) :
    plainType type = [' '].intercalate ((plainTokens tokens).map Token.chars) := by
  rw [plainType, typeWords_eq, h.words_eq hstars, List.filter_map, plainTokens]
  rfl

/-- A type that does not end in a star is an arithmetic one or none. -/
theorem DataModel.scalar?_of_not_pointer (h : (plainType type).getLast? ≠ some '*') :
    m.scalar? type = (arithmeticType? (String.ofList (plainType type))).map
      fun (kind, extent) => ⟨kind, m.extent extent, min (m.extent extent) m.maxAlign⟩ := by
  rw [scalar?, if_neg h]

/-- Behind a last plain token that is a word, or without any, a plain type does not end with a
star. -/
theorem getLast?_plainType_ne_star (h : Written tokens type.toList)
    (hpointer : (plainTokens tokens).getLast? ≠ some .star) :
    (plainType type).getLast? ≠ some '*' := by
  cases hlast : (plainTokens tokens).getLast? with
  | none =>
    have hnil := List.getLast?_eq_none_iff.mp hlast
    have hstars : .star ∉ tokens := fun hstar => by
      simpa [hnil] using star_mem_plainTokens hstar
    rw [plainType_eq h hstars, hnil]
    decide
  | some t =>
    have hstar : t ≠ .star := fun heq => hpointer (heq ▸ hlast)
    obtain ⟨start, hplain⟩ := exists_plainType_eq_word h hlast hstar
    have hvalid := h.valid t (List.mem_of_mem_filter (List.mem_of_getLast? hlast))
    rw [hplain]
    exact getLast?_ne_star hvalid.chars_ne_nil fun c hc => hvalid.isWordChar hstar hc

/-- No qualifier glued to the last star: the scalar is that of the other tokens. -/
theorem DataModel.scalar?_eq (h : Written tokens type.toList)
    (hfree : ¬ QualifiedStar tokens type.toList) :
    m.scalar? type = m.scalarOf? (plainTokens tokens) := by
  by_cases hpointer : (plainTokens tokens).getLast? = some .star
  · obtain ⟨start, hplain⟩ := exists_plainType_eq_star h hpointer hfree
    rw [scalarOf?, if_pos hpointer, scalar?, hplain, List.getLast?_concat, if_pos rfl]
  rw [scalar?_of_not_pointer (getLast?_plainType_ne_star h hpointer), scalarOf?, if_neg hpointer]
  by_cases hstars : .star ∈ tokens
  · -- neither text spells an arithmetic type
    have hmem : '*' ∈ [' '].intercalate ((plainTokens tokens).map Token.chars) :=
      mem_intercalate (List.mem_map_of_mem (star_mem_plainTokens hstars)) List.mem_cons_self
    rw [arithmeticType?_eq_none (star_mem_plainType h hstars), arithmeticType?_eq_none hmem]
  · rw [plainType_eq h hstars]

/-- A qualifier glued to the last star: a plain type has the star, and does not end with it. -/
theorem DataModel.scalar?_eq_none (h : Written tokens type.toList)
    (hglued : QualifiedStar tokens type.toList) : m.scalar? type = none := by
  obtain ⟨hlast, hglued⟩ := hglued
  obtain ⟨before, quals, htype, hbehind, hquals⟩ := exists_behindLastStar h hlast
  obtain ⟨c, hc, hblank⟩ := (Option.any_eq_true _ _).mp hglued
  obtain ⟨q, quals, rest, rfl, hrest, hwritten, hhead⟩ :=
    hbehind.exists_first hc (by simpa using hblank)
  obtain ⟨hq, hquals⟩ := List.forall_mem_cons.mp hquals
  have hword : ∀ c ∈ q.chars, isWordChar c = true := fun _ => isWordChar_of_isQualifier hq
  have hne : q.chars ≠ [] := (hbehind.valid q List.mem_cons_self).chars_ne_nil
  have hstar : q ≠ .star := by
    rintro rfl
    exact absurd hq (by decide)
  have hsplit : type.toList = before ++ ('*' :: q.chars) ++ rest := by
    rw [List.append_assoc, List.cons_append, ← hrest]
    exact htype
  have hchars : ∀ c ∈ '*' :: q.chars, isBlank c = false :=
    List.forall_mem_cons.mpr ⟨by decide, fun c hc => not_isBlank_of_isWordChar (hword c hc)⟩
  have hblanks := hwritten.isBlank_head (star_not_mem_of_isQualifier hquals) (hhead hstar)
  obtain ⟨start, hplain⟩ := exists_plainType_eq hsplit (List.cons_ne_nil _ _) hchars hblanks
    hwritten hquals fun _ _ => isQualifier_eq_false (c := '*') (by simp) (by decide)
  -- the star is no longer the last character, so the type is no pointer
  have hend : (plainType type).getLast? ≠ some '*' := by
    rw [hplain, List.append_cons]
    exact getLast?_ne_star hne hword
  rw [scalar?_of_not_pointer hend, arithmeticType?_eq_none (by simp [hplain])]
  rfl

/-! ## Types with the same plain tokens -/

/-- What two types with the same plain tokens are meant to share: they are the same scalar on every
data model, a pointer if the last plain token is a star, and a member can be declared with both or
with none. -/
structure SameScalar (tokens : List Token) (type other : String) : Prop where
  scalar : ∀ m : DataModel, m.scalar? type = m.scalar? other
  pointer : (plainTokens tokens).getLast? = some .star →
    ∀ m : DataModel, m.scalar? type = some ⟨.pointer, m.wordSize, m.wordSize⟩
  supported : ∀ (m : DataModel) (message name : String),
    (∃ s, Placement.scalarOf m message name type = .ok s) ↔
      ∃ s, Placement.scalarOf m message name other = .ok s

/-- A member can be placed just if its type has a scalar. -/
theorem exists_scalarOf_eq_ok {message name : String} :
    (∃ s, Placement.scalarOf m message name type = .ok s) ↔ m.scalar? type ≠ none := by
  rw [Placement.scalarOf]
  cases m.scalar? type <;> simp

theorem scalarOf?_of_star (h : tokens.getLast? = some .star) :
    m.scalarOf? tokens = some ⟨.pointer, m.wordSize, m.wordSize⟩ :=
  if_pos h

/-- Qualifiers and the space around tokens say nothing about the scalar of a type, exactly if no
qualifier stands directly behind the last star: a type like that has no scalar, and any other one
is the scalar of its plain tokens. -/
theorem sameScalar_iff (h : Written tokens type.toList) (hother : Written others other.toList)
    (hplain : plainTokens tokens = plainTokens others) :
    (SameScalar tokens type other ↔
        ¬ QualifiedStar tokens type.toList ∧ ¬ QualifiedStar others other.toList) ∧
      ∀ m : DataModel, m.scalar? type =
        if QualifiedStar tokens type.toList then none else m.scalarOf? (plainTokens tokens) := by
  refine ⟨⟨fun hsame => ⟨fun hglued => ?_, fun hglued => ?_⟩, fun ⟨hfree, hotherFree⟩ => ?_⟩,
    fun m => ?_⟩
  · have hscalar := hsame.pointer hglued.1 .lp64
    rw [DataModel.scalar?_eq_none h hglued] at hscalar
    cases hscalar
  · have hscalar := hsame.pointer (hplain ▸ hglued.1) .lp64
    rw [hsame.scalar, DataModel.scalar?_eq_none hother hglued] at hscalar
    cases hscalar
  · have hscalar (m : DataModel) : m.scalar? type = m.scalar? other := by
      rw [DataModel.scalar?_eq h hfree, DataModel.scalar?_eq hother hotherFree, hplain]
    refine ⟨hscalar, fun hlast m => ?_, fun m message name => ?_⟩
    · rw [DataModel.scalar?_eq h hfree, scalarOf?_of_star hlast]
    · rw [exists_scalarOf_eq_ok, exists_scalarOf_eq_ok, hscalar]
  · split
    · rename_i hglued
      exact DataModel.scalar?_eq_none h hglued
    · rename_i hfree
      exact DataModel.scalar?_eq h hfree

/-- `char * const volatile` and `const char*` are the same scalar. -/
theorem sameScalar_path :
    SameScalar [.word "char".toList, .star, .word "const".toList, .word "volatile".toList]
      "char * const volatile" "const char*" := by
  have hother : Written [.word "const".toList, .word "char".toList, .star]
      "const char*".toList := by
    decide
  exact (sameScalar_iff (by decide) hother (by decide)).1.mpr (by decide)

/-- `char *const` has no scalar, and `char * const` is a pointer. -/
theorem not_sameScalar_glued :
    Written [.word "char".toList, .star, .word "const".toList] "char *const".toList ∧
      Written [.word "char".toList, .star, .word "const".toList] "char * const".toList ∧
      ¬ SameScalar [.word "char".toList, .star, .word "const".toList]
        "char *const" "char * const" := by
  refine ⟨by decide, by decide, fun hsame => ?_⟩
  exact absurd (hsame.scalar .lp64) (by decide)

end MessageSchema.Memory
