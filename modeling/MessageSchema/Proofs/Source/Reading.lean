import MessageSchema.Proofs.Source.Lexemes
import MessageSchema.Source.Grammar

/-!
# What readers read

`Reads p s x rest`: on the text `s` the reader `p` gives `x` and leaves `rest`, whatever the
position and the attempts on record. `Fails p s`: on `s` it gives nothing. Each combinator has a
lemma for each way in which it can succeed or fail. `ReadsInside` is for what stands between two
gaps, as the content of brackets does (`reads_enclosed`).
-/

namespace MessageSchema.Source

open Reader

variable {α β : Type}

/-- The reader gives `x` and leaves `rest`. -/
def Reads (p : Reader α) (s : List Char) (x : α) (rest : List Char) : Prop :=
  ∀ offset a, ∃ offset' a', p ⟨offset, s⟩ a = (some (x, ⟨offset', rest⟩), a')

/-- The reader gives nothing. -/
def Fails (p : Reader α) (s : List Char) : Prop :=
  ∀ offset a, ∃ a', p ⟨offset, s⟩ a = (none, a')

section Combinators

variable {p q : Reader α} {f : α → Reader β} {x : α} {y : β} {s mid rest : List Char}

theorem reads_pure (x : α) (s : List Char) : Reads (pure x) s x s :=
  fun offset a => ⟨offset, a, rfl⟩

/-- What is read by one reader and then by another is read by both. -/
theorem Reads.bind (hp : Reads p s x mid) (hf : Reads (f x) mid y rest) :
    Reads (p >>= f) s y rest := by
  intro offset a
  obtain ⟨offset₁, a₁, h₁⟩ := hp offset a
  obtain ⟨offset₂, a₂, h₂⟩ := hf offset₁ a₁
  refine ⟨offset₂, a₂, ?_⟩
  simp only [Bind.bind, h₁, h₂]

theorem Reads.returns (hp : Reads p s x rest) (g : α → β) :
    Reads (do return g (← p)) s (g x) rest :=
  hp.bind (reads_pure (g x) rest)

theorem Fails.bind (hp : Fails p s) : Fails (p >>= f) s := by
  intro offset a
  obtain ⟨a', h⟩ := hp offset a
  exact ⟨a', by simp only [Bind.bind, h]⟩

theorem Reads.bind_fails (hp : Reads p s x mid) (hf : Fails (f x) mid) : Fails (p >>= f) s := by
  intro offset a
  obtain ⟨offset₁, a₁, h₁⟩ := hp offset a
  obtain ⟨a₂, h₂⟩ := hf offset₁ a₁
  exact ⟨a₂, by simp only [Bind.bind, h₁, h₂]⟩

theorem Reads.orElse (hp : Reads p s x rest) : Reads (p.orElse q) s x rest := by
  intro offset a
  obtain ⟨offset', a', h⟩ := hp offset a
  exact ⟨offset', a', by simp only [Reader.orElse, h]⟩

/-- Where one reader fails, the other one decides. -/
theorem Fails.orElse (hp : Fails p s) (hq : Reads q s x rest) : Reads (p.orElse q) s x rest := by
  intro offset a
  obtain ⟨a₁, h₁⟩ := hp offset a
  obtain ⟨offset₂, a₂, h₂⟩ := hq offset a₁
  exact ⟨offset₂, a₂, by simp only [Reader.orElse, h₁, h₂]⟩

theorem Fails.orElse_fails (hp : Fails p s) (hq : Fails q s) : Fails (p.orElse q) s := by
  intro offset a
  obtain ⟨a₁, h₁⟩ := hp offset a
  obtain ⟨a₂, h₂⟩ := hq offset a₁
  exact ⟨a₂, by simp only [Reader.orElse, h₁, h₂]⟩

theorem fails_firstOf {ps : List (Reader α)} (h : ∀ p ∈ ps, Fails p s) : Fails (firstOf ps) s := by
  induction ps with
  | nil => exact fun _ a => ⟨a, rfl⟩
  | cons p ps ih =>
    obtain ⟨hp, hps⟩ := List.forall_mem_cons.mp h
    exact hp.orElse_fails (ih hps)

theorem Reads.asRule (h : Reads p s x rest) (rule : Rule) : Reads (asRule rule p) s x rest := by
  intro offset a
  obtain ⟨offset', a', h⟩ := h offset a
  exact ⟨offset', a', by simp only [Reader.asRule, h]⟩

theorem Fails.asRule (h : Fails p s) (rule : Rule) : Fails (asRule rule p) s := by
  intro offset a
  obtain ⟨a', h⟩ := h offset a
  exact ⟨a'.recordFailure rule offset (a.countAt offset), by simp only [Reader.asRule, h]⟩

theorem reads_lexeme {split : List Char → Option (List Char × List Char)} {read : List Char}
    (h : split s = some (read, rest)) : Reads (lexeme split) s read rest :=
  fun offset a => ⟨offset + read.length, a, by simp only [lexeme, h]⟩

theorem fails_lexeme {split : List Char → Option (List Char × List Char)} (h : split s = none) :
    Fails (lexeme split) s :=
  fun _ a => ⟨a, by simp only [lexeme, h]⟩

theorem reads_exact (expected : String) (rest : List Char) :
    Reads (exact expected) (expected.toList ++ rest) () rest :=
  (reads_lexeme (splitExact_append _ _)).bind (reads_pure _ _)

theorem fails_exact {expected : String} (h : ¬ expected.toList <+: s) : Fails (exact expected) s :=
  (fails_lexeme (splitExact_eq_none h)).bind

end Combinators

section Gaps

variable {g s t : List Char}

theorem reads_gap_of_splitGap {skipped rest : List Char} (h : splitGap s = (skipped, rest)) :
    Reads gap s () rest :=
  fun offset a => ⟨offset + skipped.length, a, by simp only [gap, h]⟩

/-- A gap is read up to what begins no further one. -/
theorem reads_gap (hg : IsGap g) (hs : NoGap s) : Reads gap (g ++ s) () s :=
  reads_gap_of_splitGap (splitGap_append hg hs)

theorem reads_gap_nil (hs : NoGap s) : Reads gap s () s :=
  reads_gap .nil hs

theorem reads_gap_last (hg : IsLastGap g) : Reads gap g () [] :=
  reads_gap_of_splitGap (splitGap_lastGap hg)

/-- A gap ends a word. -/
theorem ends_gap_append (hg : IsGap g) (hs : Ends s) : Ends (g ++ s) := by
  cases hg with
  | nil => exact hs
  | @blank c _ hc _ =>
    rintro _ ⟨⟩
    simp only [List.mem_cons, List.not_mem_nil, or_false] at hc
    rcases hc with rfl | rfl | rfl | rfl <;> decide
  | lineComment _ _ =>
    rintro _ ⟨⟩
    decide
  | blockComment _ _ =>
    rintro _ ⟨⟩
    decide

/-- The reader reads what stands between two gaps. -/
def ReadsInside (p : Reader α) (s : List Char) (x : α) (rest : List Char) : Prop :=
  ∃ before after, Reads gap s () before ∧ Reads p before x after ∧ Reads gap after () rest

/-- What stands inside is read between its marks. -/
theorem reads_enclosed {p : Reader α} {x : α} {left right : String} {rest : List Char}
    (h : ReadsInside p s x (right.toList ++ rest)) :
    Reads (enclosed left right p) (left.toList ++ s) x rest := by
  obtain ⟨before, after, hbefore, hp, hafter⟩ := h
  refine (reads_exact left s).bind (hbefore.bind (hp.bind (hafter.bind ?_)))
  exact (reads_exact right rest).bind (reads_pure x rest)

end Gaps

section Repetition

variable {p : Reader α} {x : α} {xs : List α} {s t u r : List Char} {n : Nat}

theorem reads_repeated_nil (hgap : Reads gap s () t) (hp : Fails p t) (n : Nat) :
    Reads (repeated gap p n) s [] s := by
  cases n with
  | zero => exact reads_pure [] s
  | succ n => exact (hgap.bind_fails hp.bind).orElse (reads_pure [] s)

theorem reads_repeated_cons (hgap : Reads gap s () t) (hp : Reads p t x u)
    (hrest : Reads (repeated gap p n) u xs r) : Reads (repeated gap p (n + 1)) s (x :: xs) r :=
  (hgap.bind (hp.bind (hrest.bind (reads_pure (x :: xs) r)))).orElse

theorem reads_many_nil (hp : Fails p s) (n : Nat) : Reads (many gap p n) s [] s :=
  hp.bind.orElse (reads_pure [] s)

theorem reads_many_cons (hp : Reads p s x u) (hrest : Reads (repeated gap p n) u xs r) :
    Reads (many gap p n) s (x :: xs) r :=
  (hp.bind (hrest.bind (reads_pure (x :: xs) r))).orElse

end Repetition

end MessageSchema.Source
