import MessageSchema.Proofs.Source.Rendering
import MessageSchema.Proofs.Text

/-!
# Splitting off what was written

A text that begins with a written lexeme is split behind it, if what follows cannot belong to the
lexeme: behind a gap nothing that begins one (`NoGap`), behind a word or a number no word character
(`Ends`).

- **Gaps** (`splitGap_append`, `splitGap_lastGap`): by induction on the gap, with a lemma for the
  inside of each kind of comment.
- **Words and identifiers** (`splitExact_append`, `splitWord_append`, `splitIdentifier_append`).
- **Integers** (`splitInteger_append`): the digits of a numeral are taken to the last, and a decimal
  numeral is not taken for one of base sixteen.
- **Texts** (`splitText_append`): no quote in the spelling of a text ends it.
-/

namespace MessageSchema.Source

open Text

/-- Nothing that could go on with a gap. -/
def NoGap (s : List Char) : Prop :=
  ∀ c ∈ s.head?, isGapChar c = false ∧ c ≠ '/'

/-- Nothing that could go on with a word. -/
def Ends (s : List Char) : Prop :=
  ∀ c ∈ s.head?, isWordChar c = false

variable {s rest g body : List Char}

/-! ## Gaps -/

theorem onto_onto (cs ds : List Char) (split : List Char × List Char) :
    onto cs (onto ds split) = onto (cs ++ ds) split := by
  rw [onto, onto, onto, List.append_assoc]

theorem splitGap_of_noGap (h : NoGap s) : splitGap s = ([], s) := by
  cases s with
  | nil => rfl
  | cons c s =>
    obtain ⟨hblank, hslash⟩ := h c rfl
    rw [splitGap, splitGapFrom.eq_4 c s (fun _ hc _ => hslash hc) (fun _ hc _ => hslash hc), hblank,
      if_neg Bool.false_ne_true]

theorem splitGapFrom_lineComment (h : '\n' ∉ body) :
    splitGapFrom .lineComment (body ++ '\n' :: rest) = onto (body ++ ['\n']) (splitGap rest) := by
  induction body with
  | nil => rfl
  | cons c body ih =>
    obtain ⟨hc, hbody⟩ := not_or.mp (List.mem_cons.not.mp h)
    have hne : (c == '\n') = false := beq_false_of_ne (Ne.symm hc)
    rw [List.cons_append, splitGapFrom, hne, if_neg Bool.false_ne_true, ih hbody, onto_onto]
    rfl

/-- At the end a line comment needs no line end. -/
theorem splitGapFrom_lineComment_end (h : '\n' ∉ body) :
    splitGapFrom .lineComment body = (body, []) := by
  induction body with
  | nil => rfl
  | cons c body ih =>
    obtain ⟨hc, hbody⟩ := not_or.mp (List.mem_cons.not.mp h)
    have hne : (c == '\n') = false := beq_false_of_ne (Ne.symm hc)
    rw [splitGapFrom, hne, if_neg Bool.false_ne_true, ih hbody]
    rfl

theorem closesComment_append (body rest : List Char) :
    closesComment (body ++ '*' :: '/' :: rest) = true := by
  induction body with
  | nil => rfl
  | cons c body ih =>
    rw [List.cons_append]
    unfold closesComment
    split
    · rename_i heq
      cases heq
    · rfl
    · rename_i heq
      rw [← (List.cons.inj heq).2]
      exact ih

theorem splitGapFrom_blockComment (h : ¬ ['*', '/'] <:+: body) :
    splitGapFrom .blockComment (body ++ '*' :: '/' :: rest) =
      onto (body ++ ['*', '/']) (splitGap rest) := by
  induction body with
  | nil => rfl
  | cons c body ih =>
    -- if `c` and what follows closed the comment, the body would have contained the mark
    have hnot : ∀ more, c = '*' → body ++ '*' :: '/' :: rest = '/' :: more → False := by
      intro more hc hmore
      cases body with
      | nil => exact absurd (List.cons.inj hmore).1 (by decide)
      | cons d body =>
        have hd : d = '/' := (List.cons.inj hmore).1
        refine h ⟨[], body, ?_⟩
        rw [hc, hd]
        rfl
    have hbody : ¬ ['*', '/'] <:+: body := fun hin => h (hin.trans (List.infix_cons_iff.mpr
      (.inr (List.infix_refl body))))
    rw [List.cons_append, splitGapFrom.eq_7 _ _ hnot, ih hbody, onto_onto]
    rfl

/-- A gap is split off and then whatever else belongs to it. -/
theorem splitGap_gap_append (h : IsGap g) (s : List Char) :
    splitGap (g ++ s) = onto g (splitGap s) := by
  induction h with
  | nil => rfl
  | @blank c g hc _ ih =>
    have hkind : isGapChar c = true ∧ c ≠ '/' := by
      simp only [List.mem_cons, List.not_mem_nil, or_false] at hc
      rcases hc with rfl | rfl | rfl | rfl <;> decide
    rw [List.cons_append, splitGap, splitGapFrom.eq_4 c _ (fun _ hc _ => hkind.2 hc)
      (fun _ hc _ => hkind.2 hc), if_pos hkind.1]
    show onto [c] (splitGap (g ++ s)) = _
    rw [ih, onto_onto]
    rfl
  | @lineComment body g hbody _ ih =>
    have htext : '/' :: '/' :: (body ++ '\n' :: g) ++ s =
        '/' :: '/' :: (body ++ '\n' :: (g ++ s)) := by simp
    rw [htext, splitGap, splitGapFrom, splitGapFrom_lineComment hbody, ih, onto_onto, onto_onto]
    simp
  | @blockComment body g hbody _ ih =>
    have htext : '/' :: '*' :: (body ++ '*' :: '/' :: g) ++ s =
        '/' :: '*' :: (body ++ '*' :: '/' :: (g ++ s)) := by simp
    rw [htext, splitGap, splitGapFrom, if_pos (closesComment_append _ _),
      splitGapFrom_blockComment hbody, ih, onto_onto, onto_onto]
    simp

theorem splitGap_append (h : IsGap g) (hs : NoGap s) : splitGap (g ++ s) = (g, s) := by
  rw [splitGap_gap_append h, splitGap_of_noGap hs, onto, List.append_nil]

theorem splitGap_lastGap (h : IsLastGap g) : splitGap g = (g, []) := by
  cases h with
  | gap h =>
    have hnil : NoGap [] := by simp [NoGap]
    simpa using splitGap_append h hnil
  | @lineComment g body h hbody =>
    rw [splitGap_gap_append h, splitGap, splitGapFrom, splitGapFrom_lineComment_end hbody]
    rfl

/-! ## Words and identifiers -/

theorem splitExact_append (expected rest : List Char) :
    splitExact expected (expected ++ rest) = some (expected, rest) := by
  rw [splitExact, List.isPrefixOf?_eq_some_iff_append_eq.mpr rfl]
  rfl

theorem splitExact_eq_none (h : ¬ g <+: s) : splitExact g s = none := by
  rw [splitExact, Option.map_eq_none_iff, Option.eq_none_iff_forall_ne_some]
  intro rest hrest
  exact h ⟨rest, List.isPrefixOf?_eq_some_iff_append_eq.mp hrest⟩

theorem splitWord_append (word : List Char) (h : Ends rest) :
    splitWord word (word ++ rest) = some (word, rest) := by
  rw [splitWord, splitExact_append]
  cases rest with
  | nil => rfl
  | cons c rest =>
    have hc : isWordChar c = false := h c rfl
    simp [hc]

theorem splitWord_eq_none (h : ¬ g <+: s) : splitWord g s = none := by
  rw [splitWord, splitExact_eq_none h]

/-- The characters of a kind are taken up to the first of another kind. -/
theorem takeWhile_run {keep : Char → Bool} (hs : ∀ c ∈ s, keep c = true)
    (hrest : ∀ c ∈ rest.head?, keep c = false) :
    (s ++ rest).takeWhile keep = s ∧ (s ++ rest).dropWhile keep = rest := by
  rw [List.takeWhile_append_of_pos hs, List.dropWhile_append_of_pos hs]
  cases rest with
  | nil => simp
  | cons c rest =>
    have hc : keep c = false := hrest c rfl
    simp [hc]

theorem splitIdentifier_append (h : isIdentifierChars s = true) (hrest : Ends rest) :
    splitIdentifier (s ++ rest) = some (s, rest) := by
  cases s with
  | nil => exact absurd h (by decide)
  | cons c s =>
    obtain ⟨hc, hs⟩ := Bool.and_eq_true_iff.mp h
    obtain ⟨htake, hdrop⟩ := takeWhile_run (List.all_eq_true.mp hs) hrest
    rw [List.cons_append, splitIdentifier, if_pos hc, htake, hdrop]

theorem splitIdentifier_eq_none {c : Char} (h : isWordStart c = false) :
    splitIdentifier (c :: s) = none := by
  rw [splitIdentifier, h, if_neg Bool.false_ne_true]

/-! ## Integers -/

/-- A digit is a word character, and one of base sixteen or even a decimal one. -/
theorem kind_of_isDigit {d : Nat} {c : Char} (h : IsDigit d c) (hd : d < 16) :
    isHexDigit c = true ∧ isWordChar c = true ∧ (d < 10 → c.isDigit = true) := by
  rcases h with rfl | rfl
  · have hall : ∀ d < 16, isHexDigit (Nat.digitChar d) = true ∧
        isWordChar (Nat.digitChar d) = true ∧ (d < 10 → (Nat.digitChar d).isDigit = true) := by
      decide
    exact hall d hd
  · have hall : ∀ d < 16, isHexDigit (Nat.digitChar d).toUpper = true ∧
        isWordChar (Nat.digitChar d).toUpper = true ∧
        (d < 10 → (Nat.digitChar d).toUpper.isDigit = true) := by
      decide
    exact hall d hd

theorem isHexDigit_of_numeral {n : Nat} (h : Numeral 16 s n) : ∀ c ∈ s, isHexDigit c = true := by
  induction h with
  | digit hd hc => exact List.forall_mem_singleton.mpr (kind_of_isDigit hc hd).1
  | snoc _ hd hc ih =>
    exact List.forall_mem_append.mpr
      ⟨ih, List.forall_mem_singleton.mpr (kind_of_isDigit hc hd).1⟩

theorem isDigit_of_numeral {n : Nat} (h : Numeral 10 s n) : ∀ c ∈ s, c.isDigit = true := by
  induction h with
  | digit hd hc => exact List.forall_mem_singleton.mpr ((kind_of_isDigit hc (by omega)).2.2 hd)
  | snoc _ hd hc ih =>
    exact List.forall_mem_append.mpr
      ⟨ih, List.forall_mem_singleton.mpr ((kind_of_isDigit hc (by omega)).2.2 hd)⟩

theorem Numeral.ne_nil {base n : Nat} (h : Numeral base s n) : s ≠ [] := by
  cases h <;> simp

theorem isWordChar_of_isHexDigit {c : Char} (h : isHexDigit c = true) : isWordChar c = true := by
  simp only [isHexDigit, Bool.or_eq_true, Bool.and_eq_true, decide_eq_true_eq, Char.le_def,
    UInt32.le_iff_toNat_le] at h
  rcases h with (h | ⟨hlow, hhigh⟩) | ⟨hlow, hhigh⟩
  · simp [isWordChar, Char.isAlphanum, h]
  · have hletter : 97 ≤ c.toNat ∧ c.toNat ≤ 102 := ⟨hlow, hhigh⟩
    exact isWordChar_iff.mpr (by omega)
  · have hletter : 65 ≤ c.toNat ∧ c.toNat ≤ 70 := ⟨hlow, hhigh⟩
    exact isWordChar_iff.mpr (by omega)

theorem isHexDigit_of_isDigit {c : Char} (h : c.isDigit = true) : isHexDigit c = true := by
  simp [isHexDigit, h]

/-- What ends a word ends digits, too. -/
theorem Ends.not_isHexDigit (h : Ends rest) : ∀ c ∈ rest.head?, isHexDigit c = false := by
  intro c hc
  by_contra hhex
  have hword := isWordChar_of_isHexDigit (by simpa using hhex)
  exact Bool.false_ne_true ((h c hc).symm.trans hword)

theorem Ends.not_isDigit (h : Ends rest) : ∀ c ∈ rest.head?, c.isDigit = false := by
  intro c hc
  by_contra hdigit
  have hhex := isHexDigit_of_isDigit (by simpa using hdigit)
  exact Bool.false_ne_true ((h.not_isHexDigit c hc).symm.trans hhex)

theorem splitRun_append {keep : Char → Bool} (hne : s ≠ []) (hs : ∀ c ∈ s, keep c = true)
    (hrest : ∀ c ∈ rest.head?, keep c = false) : splitRun keep (s ++ rest) = some (s, rest) := by
  obtain ⟨htake, hdrop⟩ := takeWhile_run hs hrest
  have hempty : s.isEmpty = false := by
    cases s with
    | nil => exact absurd rfl hne
    | cons _ _ => rfl
  rw [splitRun, htake, hdrop, hempty, if_neg Bool.false_ne_true]

theorem splitRun_eq_none {keep : Char → Bool} {c : Char} (h : keep c = false) :
    splitRun keep (c :: s) = none := by
  simp [splitRun, h]

/-- Behind the first digit there is another one, or the end of the word. -/
theorem digit_or_end_of_second {c x : Char} {cs : List Char} (hs : ∀ c ∈ s, c.isDigit = true)
    (hne : s ≠ []) (hrest : Ends rest) (htext : s ++ rest = c :: x :: cs) :
    x.isDigit = true ∨ isWordChar x = false := by
  cases s with
  | nil => exact absurd rfl hne
  | cons d s =>
    have htail : s ++ rest = x :: cs := (List.cons.inj htext).2
    cases s with
    | nil =>
      refine .inr (hrest x ?_)
      rw [show rest = x :: cs from htail]
      rfl
    | cons e s =>
      obtain rfl := (List.cons.inj htail).1
      exact .inl (hs e (by simp))

/-- Decimal digits are not taken for a mark of base sixteen. -/
theorem splitMagnitude_decimal {n : Nat} (h : Numeral 10 s n) (hrest : Ends rest) :
    splitMagnitude (s ++ rest) = some (s, rest) := by
  have hrun := splitRun_append h.ne_nil (isDigit_of_numeral h) hrest.not_isDigit
  by_cases hmark : ∃ x cs, s ++ rest = '0' :: x :: cs
  · obtain ⟨x, cs, htext⟩ := hmark
    have hx : (x == 'x' || x == 'X') = false := by
      rw [Bool.or_eq_false_iff, beq_eq_false_iff_ne, beq_eq_false_iff_ne]
      rcases digit_or_end_of_second (isDigit_of_numeral h) h.ne_nil hrest htext with hx | hx
      · constructor <;> rintro rfl <;> exact absurd hx (by decide)
      · constructor <;> rintro rfl <;> exact absurd hx (by decide)
    rw [htext, splitMagnitude.eq_1, hx, Bool.false_and, if_neg Bool.false_ne_true, ← htext, hrun]
  · rw [splitMagnitude.eq_2 _ fun x cs htext => hmark ⟨x, cs, htext⟩, hrun]

theorem splitMagnitude_hex {n : Nat} {x : Char} (hx : x = 'x' ∨ x = 'X') (h : Numeral 16 s n)
    (hrest : Ends rest) : splitMagnitude ('0' :: x :: s ++ rest) = some ('0' :: x :: s, rest) := by
  obtain ⟨htake, hdrop⟩ := takeWhile_run (isHexDigit_of_numeral h) hrest.not_isHexDigit
  have hempty : s.isEmpty = false := by
    cases s with
    | nil => exact absurd rfl h.ne_nil
    | cons _ _ => rfl
  have hmark : (x == 'x' || x == 'X') = true := by simpa using hx
  rw [List.cons_append, List.cons_append, splitMagnitude.eq_1, htake, hdrop, hempty, hmark]
  rfl

theorem splitMagnitude_append {n : Nat} (h : SpellsNumber s n) (hrest : Ends rest) :
    splitMagnitude (s ++ rest) = some (s, rest) := by
  cases h with
  | decimal h => exact splitMagnitude_decimal h hrest
  | hex hx h => exact splitMagnitude_hex hx h hrest

/-- A number begins with a digit. -/
theorem exists_digit_of_spellsNumber {n : Nat} (h : SpellsNumber s n) :
    ∃ c cs, s = c :: cs ∧ c.isDigit = true := by
  cases h with
  | decimal h =>
    cases s with
    | nil => exact absurd rfl h.ne_nil
    | cons c cs => exact ⟨c, cs, rfl, isDigit_of_numeral h c List.mem_cons_self⟩
  | hex _ _ => exact ⟨_, _, rfl, by decide⟩

theorem splitInteger_append {n : Int} (h : SpellsInteger s n) (hrest : Ends rest) :
    splitInteger (s ++ rest) = some (s, rest) := by
  cases h with
  | unsigned h =>
    obtain ⟨c, cs, rfl, hc⟩ := exists_digit_of_spellsNumber h
    have hminus : ∀ more, c :: cs ++ rest = '-' :: more → False := by
      intro more hmore
      obtain rfl := (List.cons.inj hmore).1
      exact absurd hc (by decide)
    rw [splitInteger.eq_2 _ hminus, splitMagnitude_append h hrest]
  | negative h =>
    rw [List.cons_append, splitInteger, splitMagnitude_append h hrest]
    rfl

theorem splitInteger_eq_none {c : Char} (hminus : c ≠ '-') (hdigit : c.isDigit = false) :
    splitInteger (c :: s) = none := by
  have hmark : ∀ x cs, c :: s = '0' :: x :: cs → False := by
    intro x cs hcs
    obtain rfl := (List.cons.inj hcs).1
    exact absurd hdigit (by decide)
  rw [splitInteger.eq_2 _ fun cs hcs => hminus (List.cons.inj hcs).1, splitMagnitude.eq_2 _ hmark,
    splitRun_eq_none hdigit]

theorem splitQuoted_append {text : List Char} (h : SpellsText s text) (rest : List Char) :
    splitQuoted (s ++ '\x22' :: rest) = some (s ++ ['\x22'], rest) := by
  induction h with
  | nil => rfl
  | @plain c s text hquote hbackslash _ ih =>
    rw [List.cons_append, splitQuoted.eq_5 _ _ hquote (fun _ _ hc _ => hbackslash hc)
      (fun hc _ => hbackslash hc), ih]
    rfl
  | lineFeed _ ih | tab _ ih | null _ ih | escaped _ _ ih =>
    rw [List.cons_append, List.cons_append, splitQuoted, ih]
    rfl

theorem splitText_append {text : List Char} (h : SpellsText s text) (rest : List Char) :
    splitText ('\x22' :: (s ++ ['\x22']) ++ rest) = some ('\x22' :: (s ++ ['\x22']), rest) := by
  have htext : '\x22' :: (s ++ ['\x22']) ++ rest = '\x22' :: (s ++ '\x22' :: rest) := by simp
  rw [htext, splitText, splitQuoted_append h]
  rfl

theorem splitText_eq_none {c : Char} (h : c ≠ '\x22') : splitText (c :: s) = none := by
  rw [splitText.eq_2 _ fun cs hcs => h (List.cons.inj hcs).1]

end MessageSchema.Source
