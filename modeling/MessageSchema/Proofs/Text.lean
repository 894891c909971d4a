import Mathlib.Data.List.Basic
import MessageSchema.Text

/-!
# Parts of texts

What trimming and the last word leave of a text (`exists_trimEnd_append`, `eq_append_lastRun`), and
that the words of a text hold all of its characters that are not blank (`exists_word`).
-/

namespace MessageSchema.Text

/-! ## Ends of texts -/

/-- A text is what stands before its last characters of a kind, and these. -/
theorem eq_append_lastRun (keep : Char → Bool) (s : List Char) :
    s = (s.reverse.dropWhile keep).reverse ++ (s.reverse.takeWhile keep).reverse := by
  rw [← List.reverse_append, List.takeWhile_append_dropWhile, List.reverse_reverse]

/-- What is trimmed off at the end is blank. -/
theorem exists_trimEnd_append (s : List Char) :
    ∃ gap, s = trimEnd s ++ gap ∧ ∀ c ∈ gap, isBlank c = true := by
  refine ⟨_, eq_append_lastRun isBlank s, fun c hc => ?_⟩
  exact List.all_eq_true.mp List.all_takeWhile c (List.mem_reverse.mp hc)

/-- The character before the last ones of a kind is of another kind. -/
theorem eq_nil_or_concat_beforeLastRun (keep : Char → Bool) (s : List Char) :
    (s.reverse.dropWhile keep).reverse = [] ∨
      ∃ before c, (s.reverse.dropWhile keep).reverse = before ++ [c] ∧ keep c = false := by
  have h := List.head?_dropWhile_not keep s.reverse
  cases hrest : s.reverse.dropWhile keep with
  | nil => exact .inl rfl
  | cons c rest =>
    rw [hrest] at h
    exact .inr ⟨rest.reverse, c, List.reverse_cons, by simpa using h⟩

/-- The last characters of a kind are those that stand behind a character of another kind. -/
theorem lastRun_append {keep : Char → Bool} {before run : List Char} {c : Char}
    (hc : keep c = false) (hrun : ∀ x ∈ run, keep x = true) :
    ((before ++ c :: run).reverse.takeWhile keep).reverse = run := by
  have hall : ∀ x ∈ run.reverse, keep x = true := fun x hx => hrun x (List.mem_reverse.mp hx)
  rw [List.reverse_append, List.reverse_cons, List.append_assoc, List.takeWhile_append_of_pos hall]
  simp [hc]

/-! ## Words -/

/-- The codes of word characters: those of the capital letters, of the others, of the digits and of
the underscore. -/
theorem isWordChar_iff {c : Char} :
    isWordChar c = true ↔ 65 ≤ c.toNat ∧ c.toNat ≤ 90 ∨ 97 ≤ c.toNat ∧ c.toNat ≤ 122 ∨
      48 ≤ c.toNat ∧ c.toNat ≤ 57 ∨ c.toNat = 95 := by
  have hunderscore : c = '_' ↔ c.toNat = 95 := ⟨fun h => h ▸ rfl, fun h => Char.toNat_inj.mp h⟩
  delta isWordChar Char.isAlphanum Char.isAlpha Char.isUpper Char.isLower Char.isDigit
  simp only [Bool.or_eq_true, Bool.and_eq_true, decide_eq_true_eq, beq_iff_eq, ge_iff_le,
    UInt32.le_iff_toNat_le, or_assoc, hunderscore]
  exact Iff.rfl

theorem not_isBlank_of_isWordChar {c : Char} (h : isWordChar c = true) : isBlank c = false := by
  have hc := isWordChar_iff.mp h
  simp only [isBlank, Bool.or_eq_false_iff, Bool.and_eq_false_iff, decide_eq_false_iff_not,
    beq_eq_false_iff_ne]
  omega

theorem ne_nil_of_isIdentifierChars {s : List Char} (h : isIdentifierChars s = true) : s ≠ [] := by
  rintro rfl
  cases h

/-- An identifier is made of word characters. -/
theorem isWordChar_of_isIdentifierChars {s : List Char} (h : isIdentifierChars s = true) :
    ∀ c ∈ s, isWordChar c = true := by
  cases s with
  | nil => simp
  | cons first rest =>
    obtain ⟨hfirst, hrest⟩ := Bool.and_eq_true_iff.mp h
    refine List.forall_mem_cons.mpr ⟨?_, List.all_eq_true.mp hrest⟩
    simp only [isWordStart, isWordChar, Char.isAlphanum, Bool.or_eq_true] at hfirst ⊢
    tauto

/-- Every character of the kind is in one of the runs. -/
theorem mem_runsAfter {keep : Char → Bool} {c : Char} {run s : List Char} (hc : keep c = true)
    (hmem : c ∈ run ∨ c ∈ s) : ∃ w ∈ runsAfter keep run s, c ∈ w := by
  induction s generalizing run with
  | nil =>
    have hrun : c ∈ run := by simpa using hmem
    have hne : run.isEmpty = false := by cases run <;> simp_all
    exact ⟨run, by simp [runsAfter, hne], hrun⟩
  | cons d s ih =>
    by_cases hd : keep d = true
    · rw [runsAfter, if_pos hd]
      refine ih ?_
      rcases hmem with hrun | hmem
      · exact .inl (List.mem_append_left _ hrun)
      · rcases List.mem_cons.mp hmem with rfl | hs
        · exact .inl (by simp)
        · exact .inr hs
    · rw [runsAfter, if_neg hd]
      -- the run ends at a character of another kind, which is not the one looked for
      have hrest : c ∈ run ∨ c ∈ s := by
        rcases hmem with hrun | hmem
        · exact .inl hrun
        · rcases List.mem_cons.mp hmem with rfl | hs
          · exact absurd hc hd
          · exact .inr hs
      rcases hrest with hrun | hs
      · have hne : run.isEmpty = false := by cases run <;> simp_all
        rw [hne]
        exact ⟨run, List.mem_cons_self, hrun⟩
      · obtain ⟨w, hw, hcw⟩ := ih (Or.inr hs : c ∈ [] ∨ c ∈ s)
        refine ⟨w, ?_, hcw⟩
        split
        · exact hw
        · exact List.mem_cons_of_mem _ hw

theorem mem_intercalate {c : Char} {sep w : List Char} {ws : List (List Char)} (hw : w ∈ ws)
    (hc : c ∈ w) : c ∈ sep.intercalate ws := by
  induction ws with
  | nil => cases hw
  | cons first rest ih =>
    cases rest with
    | nil =>
      obtain rfl := List.mem_singleton.mp hw
      simpa [List.intercalate] using hc
    | cons second rest =>
      rw [List.intercalate_cons_cons, List.append_assoc, List.mem_append, List.mem_append]
      rcases List.mem_cons.mp hw with rfl | hw
      · exact .inl hc
      · exact .inr (.inr (ih hw))

/-- A character that is not blank stands in a word. -/
theorem exists_word {c : Char} {s : List Char} (hmem : c ∈ s) (hc : isBlank c = false) :
    ∃ w ∈ words s, c ∈ w :=
  mem_runsAfter (by simp [hc]) (.inr hmem)

end MessageSchema.Text
