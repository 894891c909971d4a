import MessageSchema.Proofs.Except

/-!
# Computations that might break

Reading and resolving a schema goes through steps that only work out if the steps before them have
done their part: a position is an index of a list, a piece of text ends between two characters, a
node of a parse tree has the children that its rule gives it. `Guarded ε α` is a computation in
which each of these steps says so if it does not work out, by an `InternalFault`; what it reports
about its input is an error of type `ε`.

`guarded` takes a computation without such steps for one in which they all work out. Loops of the
two kinds are compared item by item (`foldlM_eq_guarded`, `mapM_eq_guarded`).
-/

namespace MessageSchema

/-- What no input may bring about. -/
inductive InternalFault where
  /-- A parse without a tree. -/
  | emptyParse
  /-- An option without a key. -/
  | missingKey
  /-- An option without a value. -/
  | missingValue
  /-- A node that stands for no cell where a cell is expected. -/
  | unexpectedValue
  /-- A text without the node of its content. -/
  | missingContent
  /-- A backslash with nothing behind it. -/
  | danglingBackslash
  /-- An integer that is not made of digits. -/
  | notDigits
  /-- A number that has no negative of 128 bits. -/
  | negationOverflow
  /-- Columns of a table without the one of names. -/
  | noNameColumn
  /-- A position that is not an index of its list. -/
  | indexOutOfRange
  /-- A position inside of a character. -/
  | notACharBoundary
  /-- Generated text outside of all units, or a unit inside another or left open. -/
  | emitterMisuse
deriving DecidableEq, Repr

/-- Why a guarded computation has no result. -/
inductive Problem (ε : Type) where
  | internal (fault : InternalFault)
  | reported (error : ε)

/-- A computation that tells internal faults from errors in its input. -/
abbrev Guarded (ε α : Type) :=
  Except (Problem ε) α

variable {ε ε' α β γ σ : Type}

/-- A computation in which nothing can break. -/
def guarded (x : Except ε α) : Guarded ε α :=
  x.mapError .reported

namespace Guarded

/-- Breaks. -/
def fault (f : InternalFault) : Guarded ε α :=
  .error (.internal f)

/-- Reports an error. -/
def report (e : ε) : Guarded ε α :=
  .error (.reported e)

/-- Breaks if there is nothing. -/
def found (f : InternalFault) : Option α → Guarded ε α
  | some a => .ok a
  | none => fault f

/-- The computation with its errors inside other ones. -/
def within (f : ε → ε') (x : Guarded ε α) : Guarded ε' α :=
  x.mapError fun
    | .internal fault => .internal fault
    | .reported error => .reported (f error)

end Guarded

open Guarded

/-- Guarding goes through a sequence of steps. -/
theorem guarded_bind (x : Except ε α) (f : α → Except ε β) :
    guarded (x >>= f) = guarded x >>= fun a => guarded (f a) := by
  cases x <;> rfl

theorem guarded_map (x : Except ε α) (f : α → β) : guarded (x.map f) = (guarded x).map f := by
  cases x <;> rfl

theorem within_guarded (f : ε → ε') (x : Except ε α) :
    (guarded x).within f = guarded (x.mapError f) := by
  cases x <;> rfl

/-- A computation in which nothing can break does not break. -/
theorem guarded_ne_internal (x : Except ε α) (f : InternalFault) :
    guarded x ≠ .error (.internal f) := by
  cases x <;> nofun

/-- A loop is guarded if each of its steps is. -/
theorem mapM_eq_guarded {f : α → Guarded ε γ} {g : β → Except ε γ} {xs : List α} {ys : List β}
    (h : List.Forall₂ (fun x y => f x = guarded (g y)) xs ys) :
    xs.mapM f = guarded (ys.mapM g) := by
  induction h with
  | nil => rfl
  | cons hxy _ ih =>
    rw [List.mapM_cons, List.mapM_cons, guarded_bind, hxy, ih]
    refine congrArg (guarded _ >>= ·) (funext fun c => ?_)
    rw [guarded_bind]
    rfl

/-- A guarded loop over items that stand for those of another loop, with states that its steps
keep. -/
theorem foldlM_eq_guarded {P : σ → Prop} {R : α → β → Prop} {f : σ → α → Guarded ε σ}
    {g : σ → β → Except ε σ} (step : ∀ s x y, P s → R x y → f s x = guarded (g s y))
    (keep : ∀ s y s', P s → g s y = .ok s' → P s') {xs : List α} {ys : List β}
    (h : List.Forall₂ R xs ys) {s : σ} (hs : P s) :
    xs.foldlM f s = guarded (ys.foldlM g s) := by
  induction h generalizing s with
  | nil => rfl
  | @cons x y xs ys hxy _ ih =>
    rw [List.foldlM_cons, List.foldlM_cons, guarded_bind, step s x y hs hxy]
    rcases hy : g s y with e | s'
    · rfl
    · exact ih (keep s y s' hs hy)

end MessageSchema
