import MessageSchema.Proofs.Text.Trimming

/-!
# The words of a text

The runs of a text are the words that stand apart in it (`mem_runs_iff`). Words are cut at blank
characters: all that is said of words here follows from `words_append_cons`. A text that is made of
nothing but words of word characters is trimmed and cut in front of its last word where `words` cuts
it (`words_of_lastWord`).
-/

namespace MessageSchema.Text

variable {keep : Char → Bool} {run s before after word gap : List Char} {c : Char}

/-- A character of another kind ends the run in front of it. -/
theorem runsAfter_append_cons (hc : keep c = false) :
    runsAfter keep run (s ++ c :: after) = runsAfter keep run s ++ runs keep after := by
  induction s generalizing run with
  | nil =>
    by_cases hrun : run.isEmpty = true <;> simp [runsAfter, runs, hc, hrun]
  | cons d s ih =>
    simp only [List.cons_append, runsAfter, ih]
    by_cases hd : keep d = true <;> by_cases hrun : run.isEmpty = true <;> simp [hd, hrun]

theorem runsAfter_of_forall (h : ∀ c ∈ s, keep c = true) :
    runsAfter keep run s = if (run ++ s).isEmpty then [] else [run ++ s] := by
  induction s generalizing run with
  | nil => rw [runsAfter, List.append_nil]
  | cons c s ih =>
    obtain ⟨hc, hs⟩ := List.forall_mem_cons.mp h
    rw [runsAfter, if_pos hc, ih hs, List.append_assoc, List.singleton_append]

/-! ## Runs -/

/-- The word stands in the text, with no characters of its kind next to it. -/
def StandsApart (keep : Char → Bool) (word s : List Char) : Prop :=
  ∃ before after, s = before ++ word ++ after ∧ (∀ c ∈ before.getLast?, keep c = false) ∧
    ∀ c ∈ after.head?, keep c = false

theorem StandsApart.append_cons (h : StandsApart keep word after) (hc : keep c = false)
    (before : List Char) : StandsApart keep word (before ++ c :: after) := by
  obtain ⟨front, back, rfl, hfront, hback⟩ := h
  refine ⟨before ++ c :: front, back, by simp, fun d hd => ?_, hback⟩
  rcases List.eq_nil_or_concat' front with rfl | ⟨front, e, rfl⟩
  · obtain rfl : c = d := by simpa using hd
    exact hc
  · rw [← List.cons_append, ← List.append_assoc, List.getLast?_concat] at hd
    exact hfront d (by simpa using hd)

theorem standsApart_of_mem_runsAfter (hrun : ∀ c ∈ run, keep c = true)
    (h : word ∈ runsAfter keep run s) :
    word ≠ [] ∧ (∀ c ∈ word, keep c = true) ∧ StandsApart keep word (run ++ s) := by
  induction s generalizing run with
  | nil =>
    by_cases hempty : run.isEmpty = true
    · simp [runsAfter, hempty] at h
    · obtain rfl : word = run := by simpa [runsAfter, hempty] using h
      exact ⟨by simpa using hempty, hrun, [], [], by simp, by simp, by simp⟩
  | cons c s ih =>
    by_cases hc : keep c = true
    · rw [runsAfter, if_pos hc] at h
      have hlonger := List.forall_mem_append.mpr ⟨hrun, List.forall_mem_singleton.mpr hc⟩
      simpa using ih hlonger h
    -- a character of another kind stands between the run and what is behind it
    have hc : keep c = false := by simpa using hc
    have hlater (h : word ∈ runsAfter keep [] s) :
        word ≠ [] ∧ (∀ c ∈ word, keep c = true) ∧ StandsApart keep word (run ++ c :: s) := by
      obtain ⟨hne, hword, hapart⟩ := ih (by simp) h
      exact ⟨hne, hword, hapart.append_cons hc run⟩
    rw [runsAfter, if_neg (by simp [hc])] at h
    split at h
    · exact hlater h
    rename_i hempty
    rcases List.mem_cons.mp h with rfl | h
    · exact ⟨by simpa using hempty, hrun, [], c :: s, by simp, by simp, by simpa using hc⟩
    · exact hlater h

/-- The runs of a text are the words that stand apart in it. -/
theorem mem_runs_iff : word ∈ runs keep s ↔
    word ≠ [] ∧ (∀ c ∈ word, keep c = true) ∧ StandsApart keep word s := by
  refine ⟨fun h => standsApart_of_mem_runsAfter (by simp) h, ?_⟩
  rintro ⟨hne, hword, before, after, rfl, hbefore, hafter⟩
  have hrest : word ∈ runs keep (word ++ after) := by
    rcases after with _ | ⟨c, after⟩
    · rw [List.append_nil, runs, runsAfter_of_forall hword, if_neg (by simp [hne])]
      exact List.mem_singleton_self word
    · rw [runs, runsAfter_append_cons (hafter c rfl), runsAfter_of_forall hword,
        if_neg (by simp [hne])]
      exact List.mem_append_left _ (List.mem_singleton_self word)
  rcases List.eq_nil_or_concat' before with rfl | ⟨before, c, rfl⟩
  · exact hrest
  · rw [List.append_assoc, List.append_assoc, List.singleton_append, runs,
      runsAfter_append_cons (hbefore c (by simp))]
    exact List.mem_append_right _ hrest

/-! ## Words -/

/-- Words are cut at a blank character. -/
theorem words_append_cons (hc : isBlank c = true) :
    words (before ++ c :: after) = words before ++ words after :=
  runsAfter_append_cons (by simp [hc])

theorem words_eq_singleton (hne : word ≠ []) (h : ∀ c ∈ word, isBlank c = false) :
    words word = [word] := by
  have hkeep : ∀ c ∈ word, (!isBlank c) = true := fun c hc => by simp [h c hc]
  rw [words, runs, runsAfter_of_forall hkeep, List.nil_append]
  simp [hne]

theorem words_blank_append (hgap : Blank gap) (s : List Char) : words (gap ++ s) = words s := by
  induction gap with
  | nil => rfl
  | cons c gap ih =>
    obtain ⟨hc, hgap⟩ := List.forall_mem_cons.mp hgap
    rw [List.cons_append, ← List.nil_append (c :: (gap ++ s)), words_append_cons hc, ih hgap]
    rfl

/-- Only blank texts have no words. -/
theorem words_eq_nil : words s = [] ↔ Blank s := by
  constructor
  · intro h c hc
    by_contra hblank
    obtain ⟨w, hw, -⟩ := exists_word hc (by simpa using hblank)
    rw [h] at hw
    cases hw
  · intro h
    rw [← List.append_nil s, words_blank_append h]
    rfl

theorem words_append_blank (s : List Char) (hgap : Blank gap) : words (s ++ gap) = words s := by
  rcases gap with _ | ⟨c, gap⟩
  · rw [List.append_nil]
  · obtain ⟨hc, hgap⟩ := List.forall_mem_cons.mp hgap
    rw [words_append_cons hc, words_eq_nil.mpr hgap, List.append_nil]

/-- Where a text begins with a blank character, or is empty, no word goes on into it. -/
theorem words_append (before : List Char) (h : ∀ c ∈ after.head?, isBlank c = true) :
    words (before ++ after) = words before ++ words after := by
  rcases after with _ | ⟨c, after⟩
  · simp [words_eq_nil.mpr blank_nil]
  · have hc := h c rfl
    have hafter : words ([c] ++ after) = words after :=
      words_blank_append (List.forall_mem_singleton.mpr hc) after
    rw [words_append_cons hc, ← hafter]
    rfl

/-- Characters at the end of a text that are not blank stand together at the end of its last
word. -/
theorem exists_words_append (s : List Char) (hne : word ≠ [])
    (h : ∀ c ∈ word, isBlank c = false) :
    ∃ front first, words (s ++ word) = front ++ [first ++ word] ∧ first <:+ s := by
  have hkeep : ∀ c ∈ word, (!isBlank c) = true := fun c hc => by simp [h c hc]
  have hruns (run : List Char) : ∃ front first,
      runsAfter (fun c => !isBlank c) run (s ++ word) = front ++ [first ++ word] ∧
        first <:+ run ++ s := by
    induction s generalizing run with
    | nil =>
      refine ⟨[], run, ?_, by simp⟩
      rw [List.nil_append, runsAfter_of_forall hkeep, if_neg (by simp [hne]), List.nil_append]
    | cons c s ih =>
      rw [List.cons_append, runsAfter]
      split
      · obtain ⟨front, first, hrest, hfirst⟩ := ih (run ++ [c])
        exact ⟨front, first, hrest, by simpa using hfirst⟩
      obtain ⟨front, first, hrest, hfirst⟩ := ih []
      have hsuffix : first <:+ run ++ c :: s := hfirst.trans ⟨run ++ [c], by simp⟩
      split
      · exact ⟨front, first, hrest, hsuffix⟩
      · exact ⟨run :: front, first, by rw [hrest, List.cons_append], hsuffix⟩
  exact hruns []

theorem TrimmedFrom.words_eq {text : List Char} (h : TrimmedFrom text s) :
    words text = words s := by
  obtain ⟨front, back, hfront, hback, rfl⟩ := h.around
  rw [words_append_blank _ hback, words_blank_append hfront]

/-- Between words of word characters there are only blank characters. -/
theorem isBlank_of_words (hwords : ∀ w ∈ words s, ∀ c ∈ w, isWordChar c = true) (hmem : c ∈ s)
    (hc : isWordChar c = false) : isBlank c = true := by
  by_contra hblank
  obtain ⟨w, hw, hcw⟩ := exists_word hmem (by simpa using hblank)
  rw [hwords w hw c hcw] at hc
  cases hc

/-- A text with words of word characters only ends in the last of them. -/
theorem words_of_lastWord (h : LastWord (before ++ word) word)
    (hwords : ∀ w ∈ words (before ++ word), ∀ c ∈ w, isWordChar c = true) (hne : word ≠ []) :
    words (before ++ word) = words before ++ [word] := by
  have hword : words word = [word] :=
    words_eq_singleton hne fun c hc => not_isBlank_of_isWordChar (h.wordChars c hc)
  obtain ⟨front, hsame, hlast⟩ := h.exists_before
  obtain rfl := List.append_cancel_right hsame
  rcases List.eq_nil_or_concat' before with rfl | ⟨front, c, rfl⟩
  · exact hword
  · have hblank := isBlank_of_words hwords (by simp) (hlast c (by simp))
    have hfront : words (front ++ [c]) = words front :=
      words_append_blank front (by simpa [Blank] using hblank)
    rw [List.append_assoc, List.singleton_append, words_append_cons hblank, hword, hfront]

/-- A trimmed text with words of word characters only and without a last word is empty. -/
theorem eq_nil_of_lastWord_nil (htight : Tight s) (h : LastWord s [])
    (hwords : ∀ w ∈ words s, ∀ c ∈ w, isWordChar c = true) : s = [] := by
  obtain ⟨front, hsame, hlast⟩ := h.exists_before
  rw [List.append_nil] at hsame
  subst hsame
  rcases List.eq_nil_or_concat' s with rfl | ⟨front, c, rfl⟩
  · rfl
  · have hblank := isBlank_of_words hwords (by simp) (hlast c (by simp))
    rw [htight.last c (by simp)] at hblank
    cases hblank

end MessageSchema.Text
