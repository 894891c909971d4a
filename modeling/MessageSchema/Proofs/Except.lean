import Mathlib.Data.List.Forall2

/-!
# Runs that succeed

What it says about the parts that a sequence of steps in `Except` ends with a result: of one step
after another (`bind_eq_ok`), of a step whose result or error is changed (`map_eq_ok`,
`mapError_eq_ok`), of one step for each item of a list (`mapM_eq_ok`), and of a loop with a state
(`foldlM_preserves`, `foldlM_establishes`); and how far a list of steps or a loop that fails has got
(`mapM_eq_error`, `foldlM_eq_error`). Items and what comes of them are lists side by side
(`exists_left_of_forall₂`, `exists_right_of_forall₂`).
-/

namespace MessageSchema

variable {ε α β : Type}

theorem bind_eq_ok {x : Except ε α} {f : α → Except ε β} {b : β} :
    x >>= f = .ok b ↔ ∃ a, x = .ok a ∧ f a = .ok b := by
  cases x with
  | error e => simp [bind, Except.bind]
  | ok a => simp [bind, Except.bind]

/-- A check in front of a computation lets it through or ends it. -/
theorem check_bind_eq_ok {x : Except ε Unit} {y : Except ε β} {b : β} :
    (x >>= fun _ => y) = .ok b ↔ x = .ok () ∧ y = .ok b := by
  rw [bind_eq_ok]
  exact ⟨fun ⟨_, hx, hy⟩ => ⟨hx, hy⟩, fun ⟨hx, hy⟩ => ⟨(), hx, hy⟩⟩

/-- An error comes from the first computation, or from the second after the first succeeded. -/
theorem bind_eq_error {x : Except ε α} {f : α → Except ε β} {e : ε} :
    x >>= f = .error e ↔ x = .error e ∨ ∃ a, x = .ok a ∧ f a = .error e := by
  cases x with
  | error e => simp [bind, Except.bind]
  | ok a => simp [bind, Except.bind]

theorem map_eq_ok {x : Except ε α} {f : α → β} {b : β} :
    x.map f = .ok b ↔ ∃ a, x = .ok a ∧ f a = b := by
  cases x with
  | error e => simp [Except.map]
  | ok a => simp [Except.map]

theorem mapError_eq_ok {ε' : Type} {x : Except ε α} {f : ε → ε'} {a : α} :
    x.mapError f = .ok a ↔ x = .ok a := by
  cases x with
  | error e => simp [Except.mapError]
  | ok a => simp [Except.mapError]

theorem exists_of_toOption_map {x : Except ε α} {f : α → β} {b : β}
    (h : x.toOption.map f = some b) : ∃ a, x = .ok a ∧ f a = b := by
  cases x with
  | error e => cases h
  | ok a => exact ⟨a, rfl, Option.some.inj h⟩

section SideBySide

variable {R : α → β → Prop} {as cs : List α} {bs : List β} {a : α} {b : β}

theorem exists_right_of_forall₂ (h : List.Forall₂ R as bs) (ha : a ∈ as) : ∃ b ∈ bs, R a b := by
  obtain ⟨i, hi, rfl⟩ := List.getElem_of_mem ha
  have hib : i < bs.length := h.length_eq ▸ hi
  exact ⟨bs[i], List.getElem_mem hib, h.get hi hib⟩

theorem exists_left_of_forall₂ (h : List.Forall₂ R as bs) (hb : b ∈ bs) : ∃ a ∈ as, R a b := by
  obtain ⟨i, hi, rfl⟩ := List.getElem_of_mem hb
  have hia : i < as.length := h.length_eq ▸ hi
  exact ⟨as[i], List.getElem_mem hia, h.get hia hi⟩

theorem forall₂_append_cons_iff : List.Forall₂ R (as ++ a :: cs) bs ↔ ∃ before b after,
    bs = before ++ b :: after ∧ List.Forall₂ R as before ∧ R a b ∧ List.Forall₂ R cs after := by
  constructor
  · intro h
    induction as generalizing bs with
    | nil =>
      obtain ⟨b, after, hab, hafter, rfl⟩ := List.forall₂_cons_left_iff.mp h
      exact ⟨[], b, after, rfl, .nil, hab, hafter⟩
    | cons x as ih =>
      obtain ⟨y, rest, hxy, hrest, rfl⟩ := List.forall₂_cons_left_iff.mp h
      obtain ⟨before, b, after, rfl, hbefore, hab, hafter⟩ := ih hrest
      exact ⟨y :: before, b, after, rfl, .cons hxy hbefore, hab, hafter⟩
  · rintro ⟨before, b, after, rfl, hbefore, hab, hafter⟩
    exact List.rel_append hbefore (.cons hab hafter)

end SideBySide

/-- A loop over a list succeeds just if each step does, and its results stand in their order. -/
theorem mapM_eq_ok {f : α → Except ε β} {xs : List α} {ys : List β} :
    xs.mapM f = .ok ys ↔ List.Forall₂ (fun x y => f x = .ok y) xs ys := by
  induction xs generalizing ys with
  | nil => simp [pure, Except.pure, eq_comm]
  | cons x xs ih =>
    rw [List.mapM_cons, bind_eq_ok]
    constructor
    · rintro ⟨y, hy, h⟩
      obtain ⟨zs, hzs, h⟩ := bind_eq_ok.mp h
      cases h
      exact .cons hy (ih.mp hzs)
    · rintro (_ | ⟨hy, hys⟩)
      exact ⟨_, hy, bind_eq_ok.mpr ⟨_, ih.mpr hys, rfl⟩⟩

theorem exists_mapM_eq_ok {f : α → Except ε β} {xs : List α} :
    (∃ ys, xs.mapM f = .ok ys) ↔ ∀ x ∈ xs, ∃ y, f x = .ok y := by
  simp only [mapM_eq_ok]
  induction xs with
  | nil => simp
  | cons x xs ih =>
    rw [List.forall_mem_cons, ← ih]
    constructor
    · rintro ⟨_, _ | ⟨hy, hys⟩⟩
      exact ⟨⟨_, hy⟩, _, hys⟩
    · rintro ⟨⟨y, hy⟩, ys, hys⟩
      exact ⟨y :: ys, .cons hy hys⟩

theorem exists_of_mem_mapM {f : α → Except ε β} {xs : List α} {ys : List β} {y : β}
    (h : xs.mapM f = .ok ys) (hy : y ∈ ys) : ∃ x ∈ xs, f x = .ok y := by
  obtain ⟨x, hx, hstep⟩ := exists_left_of_forall₂ (mapM_eq_ok.mp h) hy
  exact ⟨x, hx, hstep⟩

/-- Steps for the items of a list fail at the first item whose step fails. -/
theorem mapM_eq_error {f : α → Except ε β} {xs : List α} {e : ε} :
    xs.mapM f = .error e ↔ ∃ before x after, xs = before ++ x :: after ∧
      (∀ y ∈ before, ∃ b, f y = .ok b) ∧ f x = .error e := by
  constructor
  · intro h
    induction xs with
    | nil => cases h
    | cons x xs ih =>
      rw [List.mapM_cons] at h
      obtain hx | ⟨b, hb, h⟩ := bind_eq_error.mp h
      · exact ⟨[], x, xs, rfl, by simp, hx⟩
      · obtain hxs | ⟨bs, -, h⟩ := bind_eq_error.mp h
        · obtain ⟨before, y, after, rfl, hbefore, hy⟩ := ih hxs
          exact ⟨x :: before, y, after, rfl, List.forall_mem_cons.mpr ⟨⟨b, hb⟩, hbefore⟩, hy⟩
        · cases h
  · rintro ⟨before, x, after, rfl, hbefore, hx⟩
    obtain ⟨bs, hbs⟩ := exists_mapM_eq_ok.mpr hbefore
    rw [List.mapM_append, hbs, List.mapM_cons, hx]
    rfl

theorem exists_of_mapM_eq_error {f : α → Except ε β} {xs : List α} {e : ε}
    (h : xs.mapM f = .error e) : ∃ x ∈ xs, f x = .error e := by
  obtain ⟨before, x, after, rfl, -, hx⟩ := mapM_eq_error.mp h
  exact ⟨x, by simp, hx⟩

/-- What every step of a loop keeps, the loop keeps. -/
theorem foldlM_preserves {P : β → Prop} {f : β → α → Except ε β} {xs : List α} {b c : β}
    (step : ∀ b a c, P b → f b a = .ok c → P c) (hb : P b) (h : xs.foldlM f b = .ok c) : P c := by
  induction xs generalizing b with
  | nil => cases h; exact hb
  | cons x xs ih =>
    obtain ⟨d, hd, h⟩ := bind_eq_ok.mp h
    exact ih (step b x d hb hd) h

/-- What one step of a loop brings about and every step keeps, the loop brings about. -/
theorem foldlM_establishes {P : β → Prop} {f : β → α → Except ε β} {xs : List α} {x : α} {b c : β}
    (hx : x ∈ xs) (sets : ∀ b c, f b x = .ok c → P c)
    (keeps : ∀ b a c, P b → f b a = .ok c → P c) (h : xs.foldlM f b = .ok c) : P c := by
  induction xs generalizing b with
  | nil => cases hx
  | cons y ys ih =>
    obtain ⟨d, hd, hys⟩ := bind_eq_ok.mp h
    rcases List.mem_cons.mp hx with rfl | hx
    · exact foldlM_preserves keeps (sets b d hd) hys
    · exact ih hx hys

/-- A loop fails at the first item whose step fails. -/
theorem foldlM_eq_error {f : β → α → Except ε β} {xs : List α} {b : β} {e : ε} :
    xs.foldlM f b = .error e ↔ ∃ before x after c,
      xs = before ++ x :: after ∧ before.foldlM f b = .ok c ∧ f c x = .error e := by
  constructor
  · intro h
    induction xs generalizing b with
    | nil => cases h
    | cons x xs ih =>
      obtain hx | ⟨c, hc, h⟩ := bind_eq_error.mp h
      · exact ⟨[], x, xs, b, rfl, rfl, hx⟩
      · obtain ⟨before, y, after, d, rfl, hd, hy⟩ := ih h
        exact ⟨x :: before, y, after, d, rfl, bind_eq_ok.mpr ⟨c, hc, hd⟩, hy⟩
  · rintro ⟨before, x, after, c, rfl, hc, hx⟩
    rw [List.foldlM_append, hc]
    exact bind_eq_error.mpr (.inr ⟨c, rfl, bind_eq_error.mpr (.inl hx)⟩)

theorem run_ofExcept {m : Type → Type} [Monad m] (x : Except ε α) :
    (ofExcept x : ExceptT ε m α).run = pure x := by
  cases x <;> rfl

section InPlace

variable {σ : Type} (s : σ)

/-- On a state, the second of two computations goes on with the state of the first. -/
theorem run_run_bind (x : ExceptT ε (StateM σ) α) (f : α → ExceptT ε (StateM σ) β) :
    (x >>= f).run.run s = match (x.run.run s : Except ε α × σ) with
      | (.ok a, after) => (f a).run.run after
      | (.error e, after) => (.error e, after) := by
  simp only [ExceptT.run_bind, StateT.run_bind]
  rcases StateT.run (ExceptT.run x) s with ⟨_ | _, _⟩ <;> rfl

theorem run_run_get : (get : ExceptT ε (StateM σ) σ).run.run s = (.ok s, s) :=
  rfl

theorem run_run_ofExcept (x : Except ε α) :
    (ofExcept x : ExceptT ε (StateM σ) α).run.run s = (x, s) := by
  cases x <;> rfl

end InPlace

end MessageSchema
