import MessageSchema.Proofs.Text

/-!
# Trimmed texts and last words

What `trim` and the scan for the last word give back, said without them.

- **Trimming** (`TrimmedFrom text s`): `s` has no blank character at either end, and around it in
  `text` there are only such. This is so of `trim text` alone (`trimmedFrom_iff`).
- **Last words** (`LastWord text word`): the longest run of word characters at the end of a text.
  It is what the scan from the end finds (`LastWord.scan`), and a text has one only
  (`LastWord.unique`).
-/

namespace MessageSchema.Text

variable {text s before after word gap : List Char} {c : Char}

/-! ## Blank ends -/

/-- A text of blank characters only. -/
def Blank (s : List Char) : Prop :=
  ∀ c ∈ s, isBlank c = true

/-- A text without blank characters at its ends. -/
structure Tight (s : List Char) : Prop where
  first : ∀ c ∈ s.head?, isBlank c = false
  last : ∀ c ∈ s.getLast?, isBlank c = false

instance (s : List Char) : Decidable (Blank s) :=
  decidable_of_iff (s.all isBlank = true) List.all_eq_true

theorem blank_nil : Blank [] := by
  simp [Blank]

theorem tight_nil : Tight [] :=
  ⟨by simp, by simp⟩

theorem Blank.append (hs : Blank s) (hgap : Blank gap) : Blank (s ++ gap) :=
  List.forall_mem_append.mpr ⟨hs, hgap⟩

theorem Blank.not_mem (h : Blank s) (hc : isBlank c = false) : c ∉ s := fun hmem => by
  rw [h c hmem] at hc
  cases hc

/-- A tight text that is blank is empty. -/
theorem Tight.eq_nil (h : Tight s) (hblank : Blank s) : s = [] := by
  rcases s with _ | ⟨c, s⟩
  · rfl
  · exact absurd List.mem_cons_self (hblank.not_mem (h.first c rfl))

theorem trimEnd_append_blank (s : List Char) (hgap : Blank gap) :
    trimEnd (s ++ gap) = trimEnd s := by
  have hreverse : ∀ c ∈ gap.reverse, isBlank c = true :=
    fun c hc => hgap c (List.mem_reverse.mp hc)
  unfold trimEnd
  rw [List.reverse_append, List.dropWhile_append_of_pos hreverse]

theorem trimEnd_eq_self (h : ∀ c ∈ s.getLast?, isBlank c = false) : trimEnd s = s := by
  unfold trimEnd
  rcases List.eq_nil_or_concat' s with rfl | ⟨s, c, rfl⟩
  · rfl
  · have hc : isBlank c = false := h c (by simp)
    simp [hc]

theorem getLast?_trimEnd (s : List Char) : ∀ c ∈ (trimEnd s).getLast?, isBlank c = false := by
  intro c hc
  unfold trimEnd at hc
  rw [List.getLast?_reverse] at hc
  have hhead := List.head?_dropWhile_not isBlank s.reverse
  rw [Option.mem_def.mp hc] at hhead
  simpa using hhead

/-- Trimming leaves nothing of a blank text only. -/
theorem trimEnd_eq_nil : trimEnd s = [] ↔ Blank s := by
  constructor
  · intro h
    obtain ⟨gap, hs, hgap⟩ := exists_trimEnd_append s
    rw [h, List.nil_append] at hs
    exact hs ▸ hgap
  · intro h
    simpa [trimEnd] using trimEnd_append_blank [] h

/-! ## Trimming -/

/-- The middle part of a text, tight, with only blank characters around it. -/
structure TrimmedFrom (text s : List Char) : Prop where
  tight : Tight s
  around : ∃ before after, Blank before ∧ Blank after ∧ text = before ++ s ++ after

/-- A text is trimmed to its tight middle part. -/
theorem trimmedFrom_trim (text : List Char) : TrimmedFrom text (trim text) := by
  obtain ⟨after, hafter, hblank⟩ := exists_trimEnd_append (text.dropWhile isBlank)
  refine ⟨⟨fun c hc => ?_, getLast?_trimEnd _⟩, text.takeWhile isBlank, after, ?_, hblank, ?_⟩
  · -- what is trimmed at the end leaves the first character where it is
    have hhead := List.head?_dropWhile_not isBlank text
    rw [trim] at hc
    rcases htrim : trimEnd (text.dropWhile isBlank) with _ | ⟨d, rest⟩
    · simp [htrim] at hc
    · rw [htrim] at hc hafter
      obtain rfl : d = c := by simpa using hc
      rw [hafter] at hhead
      simpa using hhead
  · exact fun c hc => List.all_eq_true.mp List.all_takeWhile c hc
  · rw [List.append_assoc, trim, ← hafter, List.takeWhile_append_dropWhile]

/-- And there is no other one. -/
theorem TrimmedFrom.trim_eq (h : TrimmedFrom text s) : trim text = s := by
  obtain ⟨before, after, hbefore, hafter, rfl⟩ := h.around
  rw [trim, List.append_assoc, List.dropWhile_append_of_pos hbefore]
  rcases s with _ | ⟨c, s⟩
  · rw [List.nil_append, trimEnd_eq_nil]
    intro c hc
    exact hafter c ((List.dropWhile_suffix isBlank).subset hc)
  · have hc : isBlank c = false := h.tight.first c (by simp)
    rw [List.cons_append, List.dropWhile_cons_of_neg (by simp [hc]), ← List.cons_append,
      trimEnd_append_blank _ hafter, trimEnd_eq_self h.tight.last]

theorem trimmedFrom_iff : TrimmedFrom text s ↔ trim text = s :=
  ⟨TrimmedFrom.trim_eq, fun h => h ▸ trimmedFrom_trim text⟩

theorem Tight.trim_eq (h : Tight s) : trim s = s :=
  TrimmedFrom.trim_eq ⟨h, [], [], blank_nil, blank_nil, by simp⟩

/-- Blank space at the end of a text does not change what is left of it. -/
theorem trim_append_blank (s : List Char) (hgap : Blank gap) : trim (s ++ gap) = trim s := by
  obtain ⟨htight, before, after, hbefore, hafter, hs⟩ := trimmedFrom_trim s
  refine TrimmedFrom.trim_eq ⟨htight, before, after ++ gap, hbefore, hafter.append hgap, ?_⟩
  conv_lhs => rw [hs]
  simp only [List.append_assoc]

theorem trim_eq_nil : trim s = [] ↔ Blank s := by
  constructor
  · intro h
    obtain ⟨-, before, after, hbefore, hafter, hs⟩ := trimmedFrom_trim s
    rw [hs, h, List.append_nil]
    exact hbefore.append hafter
  · intro h
    exact TrimmedFrom.trim_eq ⟨tight_nil, s, [], h, blank_nil, by simp⟩

/-! ## Last words -/

/-- The longest run of word characters at the end of a text. -/
structure LastWord (text word : List Char) : Prop where
  isSuffix : word <:+ text
  wordChars : ∀ c ∈ word, isWordChar c = true
  longest : ∀ run, run <:+ text → (∀ c ∈ run, isWordChar c = true) → run <:+ word

theorem LastWord.unique {other : List Char} (h : LastWord text word) (h' : LastWord text other) :
    word = other := by
  have hle := (h.longest other h'.isSuffix h'.wordChars).length_le
  exact (h'.longest word h.isSuffix h.wordChars).eq_of_length_le hle

/-- Word characters are the last word if what stands before them ends otherwise. -/
theorem lastWord_append (hword : ∀ c ∈ word, isWordChar c = true)
    (hbefore : ∀ c ∈ before.getLast?, isWordChar c = false) : LastWord (before ++ word) word where
  isSuffix := List.suffix_append _ _
  wordChars := hword
  longest run hrun hchars := by
    by_cases hle : run.length ≤ word.length
    · exact List.suffix_of_suffix_length_le hrun (List.suffix_append _ _) hle
    · -- a longer run holds the last character in front of the word
      obtain ⟨front, rfl⟩ :=
        List.suffix_of_suffix_length_le (List.suffix_append before word) hrun (by omega)
      have hfront : front <:+ before := List.suffix_append_self_iff.mp hrun
      rcases List.eq_nil_or_concat' front with rfl | ⟨front, c, rfl⟩
      · exact List.suffix_rfl
      · obtain ⟨rest, rfl⟩ := hfront
        have hc := hbefore c (by simp)
        rw [hchars c (by simp)] at hc
        cases hc

theorem LastWord.exists_before (h : LastWord text word) : ∃ before,
    text = before ++ word ∧ ∀ c ∈ before.getLast?, isWordChar c = false := by
  obtain ⟨before, rfl⟩ := h.isSuffix
  refine ⟨before, rfl, fun c hc => ?_⟩
  obtain ⟨front, rfl⟩ := List.getLast?_eq_some_iff.mp hc
  by_contra hword
  have hlonger : c :: word <:+ word := by
    refine h.longest _ ⟨front, by simp⟩ (List.forall_mem_cons.mpr ⟨by simpa using hword, ?_⟩)
    exact h.wordChars
  have hlength := hlonger.length_le
  simp only [List.length_cons] at hlength
  omega

/-- The scan from the end finds the last word and leaves what stands before it. -/
theorem LastWord.scan (hword : LastWord (before ++ word) word) :
    ((before ++ word).reverse.dropWhile isWordChar).reverse = before ∧
      ((before ++ word).reverse.takeWhile isWordChar).reverse = word := by
  obtain ⟨front, hfront, hbefore⟩ := hword.exists_before
  obtain rfl := List.append_cancel_right hfront
  have hall : ∀ c ∈ word.reverse, isWordChar c = true :=
    fun c hc => hword.wordChars c (List.mem_reverse.mp hc)
  rw [List.reverse_append, List.dropWhile_append_of_pos hall, List.takeWhile_append_of_pos hall]
  rcases List.eq_nil_or_concat' before with rfl | ⟨front, c, rfl⟩
  · simp
  · have hc : isWordChar c = false := hbefore c (by simp)
    simp [hc]

theorem exists_lastWord (text : List Char) :
    ∃ before word, text = before ++ word ∧ LastWord (before ++ word) word := by
  have hsplit := eq_append_lastRun isWordChar text
  refine ⟨_, _, hsplit, lastWord_append (fun c hc => ?_) fun c hc => ?_⟩
  · exact List.all_eq_true.mp List.all_takeWhile c (List.mem_reverse.mp hc)
  · rcases eq_nil_or_concat_beforeLastRun isWordChar text with hnil | ⟨front, d, hfront, hd⟩
    · simp [hnil] at hc
    · rw [hfront, List.getLast?_concat] at hc
      exact Option.some.inj hc ▸ hd

end MessageSchema.Text
