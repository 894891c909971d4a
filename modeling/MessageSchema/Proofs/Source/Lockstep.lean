import MessageSchema.Proofs.Source.Given

/-!
# Readers side by side

Two readers that go through a text in the same steps and differ in what they make of it.
`Agree R p q`: on every text both fail or both go on at the same place, with the same attempts on
record and with results that `R` relates. Each combinator has a lemma that says it takes readers
that agree to readers that agree (`Agree.bind`, `Agree.orElse`, `agree_many`, …).
-/

namespace MessageSchema.Source

open Reader

variable {α β γ δ : Type} {R : α → β → Prop} {S : γ → δ → Prop} {p : Reader α} {q : Reader β}
  {f : α → Reader γ} {g : β → Reader δ}

/-- Both readers fail with the same attempts, or both go on at the same place with results that are
related. -/
def Agree (R : α → β → Prop) (p : Reader α) (q : Reader β) : Prop :=
  ∀ c a, (∃ a', p c a = (none, a') ∧ q c a = (none, a')) ∨
    ∃ x y c' a', R x y ∧ p c a = (some (x, c'), a') ∧ q c a = (some (y, c'), a')

theorem Agree.refl (p : Reader α) : Agree (· = ·) p p := by
  intro c a
  rcases hp : p c a with ⟨_ | ⟨x, c'⟩, a'⟩
  · exact .inl ⟨a', rfl, rfl⟩
  · exact .inr ⟨x, x, c', a', rfl, rfl, rfl⟩

theorem Agree.mono {R' : α → β → Prop} (h : Agree R p q) (hR : ∀ x y, R x y → R' x y) :
    Agree R' p q := by
  intro c a
  rcases h c a with hnone | ⟨x, y, c', a', hxy, hp, hq⟩
  · exact .inl hnone
  · exact .inr ⟨x, y, c', a', hR x y hxy, hp, hq⟩

theorem Agree.pure {x : α} {y : β} (h : R x y) : Agree R (Pure.pure x) (Pure.pure y) :=
  fun c a => .inr ⟨x, y, c, a, h, rfl, rfl⟩

theorem bind_eq_of_some {c c' : Cursor} {a a' : Attempts} {x : α}
    (h : p c a = (some (x, c'), a')) : (p >>= f) c a = f x c' a' := by
  simp only [Bind.bind, h]

theorem bind_eq_of_none {c : Cursor} {a a' : Attempts} (h : p c a = (none, a')) :
    (p >>= f) c a = (none, a') := by
  simp only [Bind.bind, h]

theorem Agree.bind (h : Agree R p q) (hf : ∀ x y, R x y → Agree S (f x) (g y)) :
    Agree S (p >>= f) (q >>= g) := by
  intro c a
  rcases h c a with ⟨a', hp, hq⟩ | ⟨x, y, c', a', hxy, hp, hq⟩
  · exact .inl ⟨a', bind_eq_of_none hp, bind_eq_of_none hq⟩
  · rw [bind_eq_of_some hp, bind_eq_of_some hq]
    exact hf x y hxy c' a'

/-- Readers that agree behind the same reader. -/
theorem Agree.behind {r : Reader α} {k : α → Reader γ} {l : α → Reader δ}
    (h : ∀ x, Agree S (k x) (l x)) : Agree S (r >>= k) (r >>= l) :=
  (Agree.refl r).bind fun x _ hxy => hxy ▸ h x

theorem Agree.returns {k : α → γ} {l : β → δ} (h : Agree R p q)
    (hkl : ∀ x y, R x y → S (k x) (l y)) :
    Agree S (do return k (← p)) (do return l (← q)) :=
  h.bind fun x y hxy => .pure (hkl x y hxy)

theorem Agree.mapLeft {k : α → γ} {S : γ → β → Prop} (h : Agree R p q)
    (hk : ∀ x y, R x y → S (k x) y) : Agree S (do return k (← p)) q := by
  intro c a
  rcases h c a with ⟨a', hp, hq⟩ | ⟨x, y, c', a', hxy, hp, hq⟩
  · exact .inl ⟨a', bind_eq_of_none hp, hq⟩
  · exact .inr ⟨k x, y, c', a', hk x y hxy, bind_eq_of_some hp, hq⟩

theorem Agree.mapRight {l : β → δ} {S : α → δ → Prop} (h : Agree R p q)
    (hl : ∀ x y, R x y → S x (l y)) : Agree S p (do return l (← q)) := by
  intro c a
  rcases h c a with ⟨a', hp, hq⟩ | ⟨x, y, c', a', hxy, hp, hq⟩
  · exact .inl ⟨a', hp, bind_eq_of_none hq⟩
  · exact .inr ⟨x, l y, c', a', hl x y hxy, hp, bind_eq_of_some hq⟩

theorem agree_fail : Agree R fail fail :=
  fun _ a => .inl ⟨a, rfl, rfl⟩

theorem Agree.orElse {p' : Reader α} {q' : Reader β} (h : Agree R p q) (h' : Agree R p' q') :
    Agree R (p.orElse p') (q.orElse q') := by
  intro c a
  rcases h c a with ⟨a', hp, hq⟩ | ⟨x, y, c', a', hxy, hp, hq⟩
  · simp only [Reader.orElse, hp, hq]
    exact h' c a'
  · simp only [Reader.orElse, hp, hq]
    exact .inr ⟨x, y, c', a', hxy, rfl, rfl⟩

theorem agree_firstOf {ps : List (Reader α)} {qs : List (Reader β)}
    (h : List.Forall₂ (Agree R) ps qs) : Agree R (firstOf ps) (firstOf qs) := by
  induction h with
  | nil => exact agree_fail
  | cons h _ ih => exact h.orElse ih

theorem Agree.asRule (h : Agree R p q) (rule : Rule) : Agree R (asRule rule p) (asRule rule q) := by
  intro c a
  rcases h c a with ⟨a', hp, hq⟩ | ⟨x, y, c', a', hxy, hp, hq⟩
  · simp only [Reader.asRule, hp, hq]
    exact .inl ⟨_, rfl, rfl⟩
  · simp only [Reader.asRule, hp, hq]
    exact .inr ⟨x, y, c', a', hxy, rfl, rfl⟩

theorem agree_repeated {gap : Reader Unit} (h : Agree R p q) (n : Nat) :
    Agree (List.Forall₂ R) (repeated gap p n) (repeated gap q n) := by
  induction n with
  | zero => exact .pure .nil
  | succ n ih =>
    exact .orElse (.behind fun _ => h.bind fun _ _ hxy => ih.returns fun _ _ hs => .cons hxy hs)
      (.pure .nil)

theorem agree_many {gap : Reader Unit} (h : Agree R p q) (limit : Nat) :
    Agree (List.Forall₂ R) (many gap p limit) (many gap q limit) :=
  .orElse (h.bind fun _ _ hxy => (agree_repeated h limit).returns fun _ _ hs => .cons hxy hs)
    (.pure .nil)

theorem Agree.enclosed (h : Agree R p q) (left right : String) :
    Agree R (enclosed left right p) (enclosed left right q) :=
  .behind fun _ => .behind fun _ => h.bind fun _ _ hxy =>
    .behind fun _ => .behind fun _ => .pure hxy

theorem agree_commaSeparated (h : Agree R p q) (limit : Nat) :
    Agree (List.Forall₂ R) (commaSeparated p limit) (commaSeparated q limit) :=
  h.bind fun _ _ hxy => .behind fun _ =>
    (agree_many (.behind fun _ => .behind fun _ => h) limit).bind fun _ _ hs =>
      .behind fun _ => .behind fun _ => .pure (.cons hxy hs)

/-- The results of the second reader are such as it gives somewhere. -/
theorem Agree.gives (h : Agree R p q) :
    Agree (fun x y => R x y ∧ ∃ s rest, Gives q s y rest) p q := by
  intro c a
  rcases h c a with hnone | ⟨x, y, c', a', hxy, hp, hq⟩
  · exact .inl hnone
  · exact .inr ⟨x, y, c', a', ⟨hxy, c.rest, c'.rest, c.offset, a, c'.offset, a', hq⟩, hp, hq⟩

end MessageSchema.Source
