import MessageSchema.Proofs.Source.Reading

/-!
# Lists are read as they were written

If a reader reads all items that are written (`ReadsWritten`) and fails behind the last of them,
then lists of written items are read, with the gaps around them: with commas
(`readsInside_commaSeparated`, `readsInside_listed`) and without (`readsInside_sequence`).

- **Spacing** (`Spaced`, `Joined`): a text of tokens is divided as its tokens are.
- **Items** (`ReadsWritten.first`, `ReadsWritten.further`): one item is read with the gap, or the
  comma and the gaps, in front of it.
- **Ends of lists** (`Stops`, `Finishes`): at the comma that may stand behind the last item, the
  reader of a further item takes the comma and the gap behind it, fails and goes back.

The inductions are on how the items behind the first are written.
-/

namespace MessageSchema.Source

open Reader Text

variable {α : Type} {Written : α → List (List Char) → Prop} {p : Reader α} {limit n : Nat} {x : α}
  {xs : List α} {tokens more : List (List Char)} {g s t u rest stop : List Char}

/-! ## Spacing -/

/-- A text of tokens that begins with the first of them. -/
inductive Joined : List (List Char) → List Char → Prop
  | cons {token s : List Char} {tokens : List (List Char)} :
    Spaced tokens s → Joined (token :: tokens) (token ++ s)

/-- The first token is not empty, and no gap goes on into it. -/
def Begins (tokens : List (List Char)) : Prop :=
  ∃ c cs more, tokens = (c :: cs) :: more ∧ isGapChar c = false ∧ c ≠ '/'

theorem Spaced.of_append (h : Spaced (tokens ++ more) s) :
    ∃ a b, s = a ++ b ∧ Spaced tokens a ∧ Spaced more b := by
  induction tokens generalizing s with
  | nil => exact ⟨[], s, rfl, .nil, h⟩
  | cons token tokens ih =>
    cases h with
    | @cons g _ s _ hg h =>
      obtain ⟨a, b, rfl, ha, hb⟩ := ih h
      exact ⟨g ++ (token ++ a), b, by simp, .cons hg ha, hb⟩

theorem Spaced.joined (h : Spaced tokens s) (hb : Begins tokens) :
    ∃ g b, s = g ++ b ∧ IsGap g ∧ Joined tokens b := by
  obtain ⟨c, cs, more, rfl, -⟩ := hb
  cases h with
  | cons hg h => exact ⟨_, _, rfl, hg, .cons h⟩

theorem Joined.of_append (h : Joined (tokens ++ more) s) (hb : Begins tokens) :
    ∃ a b, s = a ++ b ∧ Joined tokens a ∧ Spaced more b := by
  obtain ⟨c, cs, rest, rfl, -⟩ := hb
  cases h with
  | cons h =>
    obtain ⟨a, b, rfl, ha, hb⟩ := h.of_append
    exact ⟨_, b, (List.append_assoc _ _ _).symm, .cons ha, hb⟩

theorem Begins.append (h : Begins tokens) (more : List (List Char)) : Begins (tokens ++ more) := by
  obtain ⟨c, cs, rest, rfl, hc⟩ := h
  exact ⟨c, cs, rest ++ more, rfl, hc⟩

theorem Joined.noGap (h : Joined tokens s) (hb : Begins tokens) (rest : List Char) :
    NoGap (s ++ rest) := by
  obtain ⟨c, cs, more, rfl, hc⟩ := hb
  cases h with
  | cons h =>
    rintro _ ⟨⟩
    exact hc

theorem Joined.length_pos (h : Joined tokens s) (hb : Begins tokens) : 0 < s.length := by
  obtain ⟨c, cs, more, rfl, -⟩ := hb
  cases h with
  | cons h => simp

/-- The text of one token behind a gap. -/
theorem Spaced.singleton {token : List Char} (h : Spaced [token] s) :
    ∃ g, s = g ++ token ∧ IsGap g := by
  cases h with
  | @cons g _ _ _ hg h =>
    cases h
    exact ⟨g, by simp, hg⟩

/-! ## Items -/

/-- All items that are written and short enough are read, if the text behind them is of a kind. -/
structure ReadsWritten (Written : α → List (List Char) → Prop) (p : Reader α) (limit : Nat)
    (Follows : List Char → Prop) : Prop where
  begins : ∀ x tokens, Written x tokens → Begins tokens
  reads : ∀ x tokens s rest, Written x tokens → Joined tokens s → s.length < limit →
    Follows rest → Reads p (s ++ rest) x rest

/-- The first of several items is read with the gap in front of it. -/
theorem ReadsWritten.first {Follows : List Char → Prop} (hp : ReadsWritten Written p limit Follows)
    (hx : Written x tokens) (hs : Spaced (tokens ++ more) s) (hlimit : s.length < limit) :
    ∃ u, Spaced more u ∧ u.length < s.length ∧ ∀ rest, Follows (u ++ rest) →
      ∃ t, Reads gap (s ++ rest) () t ∧ Reads p t x (u ++ rest) := by
  have hbegins := hp.begins x tokens hx
  obtain ⟨a, u, rfl, ha, hu⟩ := hs.of_append
  obtain ⟨g, b, rfl, hg, hb⟩ := ha.joined hbegins
  have hpos : 0 < b.length := hb.length_pos hbegins
  simp only [List.length_append] at hlimit ⊢
  refine ⟨u, hu, by omega, ?_⟩
  intro rest hfollows
  have htext : g ++ b ++ u ++ rest = g ++ (b ++ (u ++ rest)) := by simp
  rw [htext]
  have hitem : Reads p (b ++ (u ++ rest)) x (u ++ rest) :=
    hp.reads x tokens b _ hx hb (by omega) hfollows
  exact ⟨_, reads_gap hg (hb.noGap hbegins _), hitem⟩

/-- A text at which a list of items ends. -/
structure Stops (p : Reader α) (stop : List Char) : Prop where
  noGap : NoGap stop
  ends : Ends stop
  comma : ',' ∉ stop.head?
  fails : Fails p stop

/-- A comma may be left, and gaps. -/
def Finishes (s stop : List Char) : Prop :=
  ∃ t u, Reads gap s () t ∧ Reads optionalComma t () u ∧ Reads gap u () stop

/-- The reader of a further item of a list. -/
def furtherItem (p : Reader α) : Reader α := do
  exact ","
  gap
  p

theorem noGap_comma (s : List Char) : NoGap (',' :: s) := by
  rintro _ ⟨⟩
  decide

theorem fails_furtherItem (h : Stops p stop) : Fails (furtherItem p) stop := by
  refine (fails_exact ?_).bind
  rintro ⟨rest, rfl⟩
  exact h.comma rfl

theorem fails_furtherItem_comma (h : Stops p stop) (hg : IsGap g) :
    Fails (furtherItem p) (',' :: (g ++ stop)) :=
  (reads_exact "," (g ++ stop)).bind_fails ((reads_gap hg h.noGap).bind_fails h.fails)

theorem reads_furtherItem (hgap : Reads gap s () t) (hp : Reads p t x u) :
    Reads (furtherItem p) (',' :: s) x u :=
  (reads_exact "," s).bind (hgap.bind hp)

theorem reads_optionalComma (s : List Char) : Reads optionalComma (',' :: s) () s :=
  (reads_exact "," s).orElse

theorem reads_optionalComma_none (h : Stops p stop) : Reads optionalComma stop () stop := by
  refine (fails_exact ?_).orElse (reads_pure () stop)
  rintro ⟨rest, rfl⟩
  exact h.comma rfl

theorem finishes_gap (h : Stops p stop) (hg : IsGap g) : Finishes (g ++ stop) stop :=
  ⟨stop, stop, reads_gap hg h.noGap, reads_optionalComma_none h, reads_gap_nil h.noGap⟩

theorem finishes_comma (h : Stops p stop) (hg : IsGap g) {g' : List Char} (hg' : IsGap g') :
    Finishes (g' ++ ',' :: (g ++ stop)) stop :=
  ⟨',' :: (g ++ stop), g ++ stop, reads_gap hg' (noGap_comma _), reads_optionalComma _,
    reads_gap hg h.noGap⟩

theorem ends_continued (h : Continued Written xs tokens) (hs : Spaced tokens s) (ht : Ends t) :
    Ends (s ++ t) := by
  have hcomma : ∀ (token u : List Char), token = [','] → Ends (token ++ u) := by
    rintro _ u rfl _ ⟨⟩
    decide
  cases hs with
  | nil => exact ht
  | @cons g token s tokens hg hs =>
    rw [List.append_assoc, List.append_assoc]
    refine ends_gap_append hg (hcomma _ _ ?_)
    cases h <;> rfl

/-! ## Lists with commas -/

/-- A further item is read with the comma in front of it. -/
theorem ReadsWritten.further (hp : ReadsWritten Written p limit Ends) (hx : Written x tokens)
    (hxs : Continued Written xs more) (hs : Spaced ([','] :: (tokens ++ more)) s)
    (hlimit : s.length < limit) (hrest : Ends rest) :
    ∃ t u, Reads gap (s ++ rest) () t ∧ Reads (furtherItem p) t x (u ++ rest) ∧
      Spaced more u ∧ u.length < s.length := by
  cases hs with
  | @cons g _ s _ hg hs =>
    simp only [List.length_append, List.length_cons] at hlimit ⊢
    obtain ⟨u, hu, hlength, hitem⟩ := hp.first hx hs (by omega)
    obtain ⟨t, hgap, hread⟩ := hitem rest (ends_continued hxs hu hrest)
    have htext : g ++ ([','] ++ s) ++ rest = g ++ ',' :: (s ++ rest) := by simp
    rw [htext]
    exact ⟨_, u, reads_gap hg (noGap_comma _), reads_furtherItem hgap hread, hu, by omega⟩

/-- The further items are read, up to a comma behind the last. -/
theorem reads_repeated_continued (hp : ReadsWritten Written p limit Ends) (hstop : Stops p stop)
    (hg : IsGap g) (h : Continued Written xs tokens) (hs : Spaced tokens s) (hn : s.length < n)
    (hlimit : s.length < limit) :
    ∃ r, Reads (repeated gap (furtherItem p) n) (s ++ (g ++ stop)) xs r ∧ Finishes r stop := by
  induction h generalizing s n with
  | nil =>
    cases hs
    have hgap : Reads gap (g ++ stop) () stop := reads_gap hg hstop.noGap
    exact ⟨g ++ stop, reads_repeated_nil hgap (fails_furtherItem hstop) n, finishes_gap hstop hg⟩
  | comma =>
    -- no item follows the comma, so the reader goes back to the gap in front of it
    obtain ⟨g', rfl, hg'⟩ := hs.singleton
    rw [List.append_assoc, List.singleton_append]
    have hgap := reads_gap hg' (noGap_comma (g ++ stop))
    exact ⟨_, reads_repeated_nil hgap (fails_furtherItem_comma hstop hg) n,
      finishes_comma hstop hg hg'⟩
  | @cons x xs tokens more hx hxs ih =>
    have hends : Ends (g ++ stop) := ends_gap_append hg hstop.ends
    obtain ⟨t, u, hgap, hitem, hu, hlength⟩ := hp.further hx hxs hs hlimit hends
    obtain ⟨n, rfl⟩ : ∃ m, n = m + 1 := ⟨n - 1, by omega⟩
    obtain ⟨r, hr, hfinishes⟩ := ih (n := n) hu (by omega) (by omega)
    exact ⟨r, reads_repeated_cons hgap hitem hr, hfinishes⟩

/-- The same with the gap in front of the first further item read before. -/
theorem reads_many_continued (hp : ReadsWritten Written p limit Ends) (hstop : Stops p stop)
    (hg : IsGap g) (h : Continued Written xs tokens) (hs : Spaced tokens s)
    (hlimit : s.length < limit) :
    ∃ t r, Reads gap (s ++ (g ++ stop)) () t ∧
      Reads (many gap (furtherItem p) limit) t xs r ∧ Finishes r stop := by
  cases h with
  | nil =>
    cases hs
    exact ⟨stop, stop, reads_gap hg hstop.noGap, reads_many_nil (fails_furtherItem hstop) limit,
      finishes_gap hstop .nil⟩
  | comma =>
    obtain ⟨g', rfl, hg'⟩ := hs.singleton
    rw [List.append_assoc, List.singleton_append]
    exact ⟨_, _, reads_gap hg' (noGap_comma _),
      reads_many_nil (fails_furtherItem_comma hstop hg) limit, finishes_comma hstop hg .nil⟩
  | @cons x xs tokens more hx hxs =>
    have hends : Ends (g ++ stop) := ends_gap_append hg hstop.ends
    obtain ⟨t, u, hgap, hitem, hu, hlength⟩ := hp.further hx hxs hs hlimit hends
    obtain ⟨r, hr, hfinishes⟩ := reads_repeated_continued (n := limit) hp hstop hg hxs hu
      (by omega) (by omega)
    exact ⟨t, r, hgap, reads_many_cons hitem hr, hfinishes⟩

/-- A list with at least one item is read. -/
theorem readsInside_commaSeparated (hp : ReadsWritten Written p limit Ends) (hstop : Stops p stop)
    (hg : IsGap g) (h : Listed Written xs tokens) (hne : xs ≠ []) (hs : Spaced tokens s)
    (hlimit : s.length < limit) :
    ReadsInside (commaSeparated p limit) (s ++ (g ++ stop)) xs stop := by
  cases h with
  | nil => exact absurd rfl hne
  | @cons x xs tokens more hx hxs =>
    obtain ⟨u, hu, hlength, hitem⟩ := hp.first hx hs hlimit
    obtain ⟨t, r, hgap, hmany, v, w, hv, hw, hfinal⟩ :=
      reads_many_continued hp hstop hg hxs hu (by omega)
    have hends : Ends (u ++ (g ++ stop)) := ends_continued hxs hu (ends_gap_append hg hstop.ends)
    obtain ⟨before, hbefore, hread⟩ := hitem (g ++ stop) hends
    refine ⟨before, w, hbefore, ?_, hfinal⟩
    exact hread.bind (hgap.bind (hmany.bind (hv.bind (hw.bind (reads_pure (x :: xs) w)))))

/-- A list is read, an empty one too. -/
theorem readsInside_listed (hp : ReadsWritten Written p limit Ends) (hstop : Stops p stop)
    (hg : IsGap g) (h : Listed Written xs tokens) (hs : Spaced tokens s)
    (hlimit : s.length < limit) :
    ReadsInside ((commaSeparated p limit).orElse (pure [])) (s ++ (g ++ stop)) xs stop := by
  by_cases hne : xs = []
  · subst hne
    cases h
    cases hs
    have hnone : Fails (commaSeparated p limit) stop := hstop.fails.bind
    exact ⟨stop, stop, reads_gap hg hstop.noGap, hnone.orElse (reads_pure [] stop),
      reads_gap_nil hstop.noGap⟩
  · obtain ⟨before, after, hbefore, hread, hafter⟩ :=
      readsInside_commaSeparated hp hstop hg h hne hs hlimit
    exact ⟨before, after, hbefore, hread.orElse, hafter⟩

/-! ## Items one behind the other -/

theorem reads_repeated_sequence (hp : ReadsWritten Written p limit fun _ => True)
    (hgap : Reads gap g () stop) (hfails : Fails p stop) (h : Sequence Written xs tokens)
    (hs : Spaced tokens s) (hn : s.length < n) (hlimit : s.length < limit) :
    Reads (repeated gap p n) (s ++ g) xs g := by
  induction h generalizing s n with
  | nil =>
    cases hs
    exact reads_repeated_nil hgap hfails n
  | @cons x xs tokens more hx _ ih =>
    obtain ⟨u, hu, hlength, hitem⟩ := hp.first hx hs hlimit
    obtain ⟨t, hbefore, hread⟩ := hitem g trivial
    obtain ⟨n, rfl⟩ : ∃ m, n = m + 1 := ⟨n - 1, by omega⟩
    exact reads_repeated_cons hbefore hread (ih hu (by omega) (by omega))

/-- A sequence of items is read up to the gap behind it. -/
theorem readsInside_sequence (hp : ReadsWritten Written p limit fun _ => True)
    (hgap : Reads gap g () stop) (hstop : NoGap stop) (hfails : Fails p stop)
    (h : Sequence Written xs tokens) (hs : Spaced tokens s) (hlimit : s.length < limit) :
    ReadsInside (many gap p limit) (s ++ g) xs stop := by
  cases h with
  | nil =>
    cases hs
    exact ⟨stop, stop, hgap, reads_many_nil hfails limit, reads_gap_nil hstop⟩
  | @cons x xs tokens more hx hxs =>
    obtain ⟨u, hu, hlength, hitem⟩ := hp.first hx hs hlimit
    obtain ⟨t, hbefore, hread⟩ := hitem g trivial
    have hrest : Reads (repeated gap p limit) (u ++ g) xs g :=
      reads_repeated_sequence hp hgap hfails hxs hu (by omega) (by omega)
    exact ⟨t, g, hbefore, reads_many_cons hread hrest, hgap⟩

end MessageSchema.Source
