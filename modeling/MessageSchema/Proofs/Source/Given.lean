import MessageSchema.Proofs.Source.Reading
import MessageSchema.Proofs.Source.Taken

/-!
# What readers give is written in the text

`Gives p s x rest`: on the text `s`, in some situation, the reader `p` gives `x` and leaves `rest`.
Each combinator has a lemma that says how it came to that (`Gives.of_bind`, `Gives.of_orElse`, …).

- **Tokens** (`Consumed`): the tokens that stand in a text in front of the rest. A gap in front of
  them and one behind them belong to the text (`Consumed.between`).
- **Items** (`GivesWritten`): whatever a reader gives is written in front of what it leaves. So are
  then the items of the reader one behind the other (`sequence_of_many`) and in lists
  (`givesInside_commaSeparated`, `givesInside_listed`).
- **Brackets** (`GivesInside`, `consumed_of_enclosed`): between two marks the reader may have read
  a gap behind the last token.
-/

namespace MessageSchema.Source

open Reader

variable {α β : Type}

/-- In some situation the reader gives `x` and leaves `rest`. -/
def Gives (p : Reader α) (s : List Char) (x : α) (rest : List Char) : Prop :=
  ∃ offset a offset' a', p ⟨offset, s⟩ a = (some (x, ⟨offset', rest⟩), a')

section Combinators

variable {p q : Reader α} {f : α → Reader β} {x : α} {y : β} {s rest : List Char}

theorem Gives.of_pure {z : α} (h : Gives (pure x) s z rest) : z = x ∧ rest = s := by
  obtain ⟨offset, a, offset', a', h⟩ := h
  cases h
  exact ⟨rfl, rfl⟩

/-- What a sequence of readers gives was given by each of them. -/
theorem Gives.of_bind (h : Gives (p >>= f) s y rest) :
    ∃ x mid, Gives p s x mid ∧ Gives (f x) mid y rest := by
  obtain ⟨offset, a, offset', a', h⟩ := h
  simp only [Bind.bind] at h
  split at h
  · rename_i x c a₁ hp
    exact ⟨x, c.rest, ⟨offset, a, c.offset, a₁, hp⟩, ⟨c.offset, a₁, offset', a', h⟩⟩
  · cases h

theorem Gives.of_returns {g : α → β} (h : Gives (do return g (← p)) s y rest) :
    ∃ x, Gives p s x rest ∧ y = g x := by
  obtain ⟨x, mid, hp, h⟩ := h.of_bind
  obtain ⟨rfl, rfl⟩ := h.of_pure
  exact ⟨x, hp, rfl⟩

theorem Gives.of_orElse (h : Gives (p.orElse q) s x rest) :
    Gives p s x rest ∨ Gives q s x rest := by
  obtain ⟨offset, a, offset', a', h⟩ := h
  simp only [Reader.orElse] at h
  split at h
  · rename_i r a₁ hp
    cases h
    exact .inl ⟨offset, a, offset', a', hp⟩
  · rename_i a₁ _
    exact .inr ⟨offset, a₁, offset', a', h⟩

/-- One of the alternatives gave it. -/
theorem Gives.of_firstOf {ps : List (Reader α)} (h : Gives (firstOf ps) s x rest) :
    ∃ p ∈ ps, Gives p s x rest := by
  induction ps with
  | nil =>
    obtain ⟨_, _, _, _, h⟩ := h
    cases h
  | cons p ps ih =>
    rcases h.of_orElse with h | h
    · exact ⟨p, List.mem_cons_self, h⟩
    · obtain ⟨q, hq, h⟩ := ih h
      exact ⟨q, List.mem_cons_of_mem p hq, h⟩

theorem Gives.of_asRule {rule : Rule} (h : Gives (asRule rule p) s x rest) : Gives p s x rest := by
  obtain ⟨offset, a, offset', a', h⟩ := h
  simp only [Reader.asRule] at h
  split at h
  · rename_i r a₁ hp
    cases h
    exact ⟨offset, a, offset', a', hp⟩
  · cases h

theorem Gives.of_lexeme {split : List Char → Option (List Char × List Char)} {read : List Char}
    (h : Gives (lexeme split) s read rest) : split s = some (read, rest) := by
  obtain ⟨offset, a, offset', a', h⟩ := h
  simp only [lexeme] at h
  split at h
  · rename_i hsplit
    cases h
    exact hsplit
  · cases h

theorem Gives.of_exact {expected : String} {u : Unit} (h : Gives (exact expected) s u rest) :
    s = expected.toList ++ rest := by
  obtain ⟨read, mid, hread, h⟩ := h.of_bind
  obtain ⟨-, rfl⟩ := h.of_pure
  obtain ⟨rfl, hs⟩ := append_of_splitExact hread.of_lexeme
  exact hs

theorem Gives.gapTo {u : Unit} (h : Gives gap s u rest) : GapTo s rest := by
  obtain ⟨offset, a, offset', a', h⟩ := h
  cases h
  exact gapTo_splitGap s

theorem Gives.of_optionalComma {u : Unit} (h : Gives optionalComma s u rest) :
    s = ',' :: rest ∨ s = rest := by
  rcases h.of_orElse with h | h
  · exact .inl h.of_exact
  · exact .inr h.of_pure.2.symm

end Combinators

section Tokens

variable {tokens more : List (List Char)} {s t u rest token : List Char}

/-- The given tokens, none of them empty, stand in front of `rest` with a gap before each. -/
inductive Consumed : List (List Char) → List Char → List Char → Prop
  | nil (s : List Char) : Consumed [] s s
  | cons {g token t rest : List Char} {tokens : List (List Char)} :
    IsGap g → token ≠ [] → Consumed tokens t rest →
      Consumed (token :: tokens) (g ++ (token ++ t)) rest

theorem consumed_token (h : token ≠ []) (rest : List Char) :
    Consumed [token] (token ++ rest) rest :=
  .cons .nil h (.nil rest)

theorem Consumed.append (h : Consumed tokens s t) (hmore : Consumed more t rest) :
    Consumed (tokens ++ more) s rest := by
  induction h with
  | nil => exact hmore
  | cons hg hne _ ih => exact .cons hg hne (ih hmore)

theorem Consumed.exists_spaced (h : Consumed tokens s rest) :
    ∃ a, s = a ++ rest ∧ Spaced tokens a := by
  induction h with
  | nil => exact ⟨[], rfl, .nil⟩
  | @cons g token _ _ _ hg _ _ ih =>
    obtain ⟨a, rfl, ha⟩ := ih
    exact ⟨g ++ (token ++ a), by simp, .cons hg ha⟩

/-- The gap in front of the first token may be longer. -/
theorem GapTo.consumed (hst : GapTo s t) (h : Consumed tokens t rest) (hne : tokens ≠ []) :
    Consumed tokens s rest := by
  cases h with
  | nil => exact absurd rfl hne
  | @cons g token t _ _ hg htoken h =>
    obtain ⟨g', rfl, hg' | ⟨-, hnil⟩⟩ := hst
    · rw [← List.append_assoc]
      exact .cons (hg'.append hg) htoken h
    · simp [htoken] at hnil

/-- Tokens between two gaps: if there are none, both are one gap. -/
theorem Consumed.between (h : Consumed tokens t u) (hst : GapTo s t) (hu : GapTo u rest) :
    ∃ m, Consumed tokens s m ∧ GapTo m rest := by
  by_cases hne : tokens = []
  · subst hne
    cases h
    exact ⟨s, .nil s, hst.trans hu⟩
  · exact ⟨u, hst.consumed h hne, hu⟩

theorem GapTo.consumed_token (h : GapTo s (token ++ rest)) (hne : token ≠ []) :
    Consumed [token] s rest :=
  h.consumed (Source.consumed_token hne rest) (List.cons_ne_nil _ _)

end Tokens

section Items

variable {Written : α → List (List Char) → Prop} {p : Reader α} {limit n : Nat} {x : α}
  {xs : List α} {s rest : List Char} {tokens : List (List Char)}

/-- Whatever the reader gives is written in front of what it leaves. -/
def GivesWritten (Written : α → List (List Char) → Prop) (p : Reader α) : Prop :=
  ∀ s x rest, Gives p s x rest → ∃ tokens, Written x tokens ∧ tokens ≠ [] ∧ Consumed tokens s rest

/-- The same for what stands between marks; behind the last token the reader may leave a gap out. -/
def GivesInside (Written : α → List (List Char) → Prop) (p : Reader α) : Prop :=
  ∀ s x rest, Gives p s x rest → ∃ tokens m, Written x tokens ∧ Consumed tokens s m ∧ GapTo m rest

/-- Repeated items are a sequence, with a gap in front of each. -/
theorem sequence_of_repeated (hp : GivesWritten Written p)
    (h : Gives (repeated gap p n) s xs rest) :
    ∃ tokens, Sequence Written xs tokens ∧ Consumed tokens s rest := by
  induction n generalizing s xs with
  | zero =>
    obtain ⟨rfl, rfl⟩ := h.of_pure
    exact ⟨[], .nil, .nil _⟩
  | succ n ih =>
    rcases h.of_orElse with h | h
    · obtain ⟨_, t, hgap, h⟩ := h.of_bind
      obtain ⟨x, u, hx, h⟩ := h.of_bind
      obtain ⟨ys, v, hrest, h⟩ := h.of_bind
      obtain ⟨rfl, rfl⟩ := h.of_pure
      obtain ⟨tokens, hwritten, hne, hconsumed⟩ := hp t x u hx
      obtain ⟨more, hmore, hmores⟩ := ih hrest
      exact ⟨_, .cons hwritten hmore, (hgap.gapTo.consumed hconsumed hne).append hmores⟩
    · obtain ⟨rfl, rfl⟩ := h.of_pure
      exact ⟨[], .nil, .nil _⟩

theorem sequence_of_many (hp : GivesWritten Written p) (h : Gives (many gap p n) s xs rest) :
    ∃ tokens, Sequence Written xs tokens ∧ Consumed tokens s rest := by
  rcases h.of_orElse with h | h
  · obtain ⟨x, t, hx, h⟩ := h.of_bind
    obtain ⟨ys, u, hrest, h⟩ := h.of_bind
    obtain ⟨rfl, rfl⟩ := h.of_pure
    obtain ⟨tokens, hwritten, -, hconsumed⟩ := hp s x t hx
    obtain ⟨more, hmore, hmores⟩ := sequence_of_repeated hp hrest
    exact ⟨_, .cons hwritten hmore, hconsumed.append hmores⟩
  · obtain ⟨rfl, rfl⟩ := h.of_pure
    exact ⟨[], .nil, .nil _⟩

/-! ## Lists with commas -/

/-- The tokens of a further item of a list. -/
inductive FurtherWritten (Written : α → List (List Char) → Prop) : α → List (List Char) → Prop
  | further {x : α} {tokens : List (List Char)} :
    Written x tokens → FurtherWritten Written x ([','] :: tokens)

theorem givesWritten_furtherItem (hp : GivesWritten Written p) :
    GivesWritten (FurtherWritten Written) (do exact ","; gap; p) := by
  intro s x rest h
  obtain ⟨_, t, hcomma, h⟩ := h.of_bind
  obtain ⟨_, u, hgap, h⟩ := h.of_bind
  obtain ⟨tokens, hwritten, hne, hconsumed⟩ := hp u x rest h
  obtain rfl := hcomma.of_exact
  exact ⟨_, .further hwritten, List.cons_ne_nil _ _,
    (consumed_token (by decide) t).append (hgap.gapTo.consumed hconsumed hne)⟩

theorem continued_of_sequence (h : Sequence (FurtherWritten Written) xs tokens) :
    Continued Written xs tokens ∧ Continued Written xs (tokens ++ [[',']]) := by
  induction h with
  | nil => exact ⟨.nil, .comma⟩
  | cons hx _ ih =>
    cases hx with
    | further hx =>
      refine ⟨.cons hx ih.1, ?_⟩
      rw [List.append_assoc, List.cons_append]
      exact .cons hx ih.2

theorem givesInside_commaSeparated (hp : GivesWritten Written p) :
    GivesInside (fun xs tokens => xs ≠ [] ∧ Listed Written xs tokens) (commaSeparated p limit) := by
  intro s xs rest h
  obtain ⟨x, t₁, hx, h⟩ := h.of_bind
  obtain ⟨_, t₂, hgap₁, h⟩ := h.of_bind
  obtain ⟨ys, t₃, hmany, h⟩ := h.of_bind
  obtain ⟨_, t₄, hgap₂, h⟩ := h.of_bind
  obtain ⟨_, t₅, hcomma, h⟩ := h.of_bind
  obtain ⟨rfl, rfl⟩ := h.of_pure
  obtain ⟨tokens, hwritten, -, hfirst⟩ := hp s x t₁ hx
  obtain ⟨more, hmore, hmores⟩ := sequence_of_many (givesWritten_furtherItem hp) hmany
  obtain ⟨m, hm, hlast⟩ := hmores.between hgap₁.gapTo hgap₂.gapTo
  obtain ⟨hcontinued, hended⟩ := continued_of_sequence hmore
  rcases hcomma.of_optionalComma with rfl | rfl
  · have hmark : Consumed [[',']] m rest := GapTo.consumed_token hlast (by decide)
    exact ⟨_, rest, ⟨List.cons_ne_nil _ _, .cons hwritten hended⟩,
      hfirst.append (hm.append hmark), .refl rest⟩
  · exact ⟨_, m, ⟨List.cons_ne_nil _ _, .cons hwritten hcontinued⟩, hfirst.append hm, hlast⟩

theorem givesInside_listed (hp : GivesWritten Written p) :
    GivesInside (Listed Written) ((commaSeparated p limit).orElse (pure [])) := by
  intro s xs rest h
  rcases h.of_orElse with h | h
  · obtain ⟨tokens, m, ⟨-, hlisted⟩, hconsumed, hgap⟩ := givesInside_commaSeparated hp s xs rest h
    exact ⟨tokens, m, hlisted, hconsumed, hgap⟩
  · obtain ⟨rfl, rfl⟩ := h.of_pure
    exact ⟨[], rest, .nil, .nil rest, .refl rest⟩

theorem givesInside_sequence (hp : GivesWritten Written p) :
    GivesInside (Sequence Written) (many gap p limit) := by
  intro s xs rest h
  obtain ⟨tokens, hsequence, hconsumed⟩ := sequence_of_many hp h
  exact ⟨tokens, rest, hsequence, hconsumed, .refl rest⟩

/-- What is read between two marks is written between them. -/
theorem consumed_of_enclosed {left right : String} (hp : GivesInside Written p)
    (hleft : left.toList ≠ []) (hright : right.toList ≠ [])
    (h : Gives (enclosed left right p) s x rest) :
    ∃ tokens, Written x tokens ∧
      Consumed (left.toList :: (tokens ++ [right.toList])) s rest := by
  obtain ⟨_, t₁, hopen, h⟩ := h.of_bind
  obtain ⟨_, t₂, hgap₁, h⟩ := h.of_bind
  obtain ⟨y, t₃, hinside, h⟩ := h.of_bind
  obtain ⟨_, t₄, hgap₂, h⟩ := h.of_bind
  obtain ⟨_, t₅, hclose, h⟩ := h.of_bind
  obtain ⟨rfl, rfl⟩ := h.of_pure
  obtain ⟨tokens, m, hwritten, hconsumed, hlast⟩ := hp t₂ x t₃ hinside
  obtain ⟨m', htokens, hgap⟩ := hconsumed.between hgap₁.gapTo (hlast.trans hgap₂.gapTo)
  obtain rfl := hopen.of_exact
  rw [hclose.of_exact] at hgap
  refine ⟨tokens, hwritten, ?_⟩
  exact (consumed_token hleft t₁).append (htokens.append (hgap.consumed_token hright))

end Items

end MessageSchema.Source
