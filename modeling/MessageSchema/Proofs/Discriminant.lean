import MessageSchema.Discriminant
import MessageSchema.Proofs.Distinct
import MessageSchema.Proofs.Except

/-!
# Discriminants without a bound

`numbers` continues the explicit discriminants through all integers. What `assign` gives are these
numbers (`assign_eq_ok`), and it gives them just if 64 bits hold each (`exists_assign`).
-/

namespace MessageSchema.Discriminant

/-- The numbers of messages with the given explicit ones, behind the number `previous`. -/
def numbersAfter (previous : Int) : List (Option Int64) → List Int
  | [] => []
  | explicit :: rest =>
    let number := explicit.elim (previous + 1) Int64.toInt
    number :: numbersAfter number rest

/-- The numbers of messages with the given explicit ones: each absent one is one more than the
number before it, and the first is 0. -/
def numbers (explicit : List (Option Int64)) : List Int :=
  numbersAfter (-1) explicit

theorem length_numbersAfter (previous : Int) (explicit : List (Option Int64)) :
    (numbersAfter previous explicit).length = explicit.length := by
  induction explicit generalizing previous with
  | nil => rfl
  | cons first rest ih => rw [numbersAfter, List.length_cons, List.length_cons, ih]

/-- The numbers of the first members do not depend on the members behind them. -/
theorem numbersAfter_take (previous : Int) (explicit : List (Option Int64)) (k : Nat) :
    numbersAfter previous (explicit.take k) = (numbersAfter previous explicit).take k := by
  induction explicit generalizing previous k with
  | nil => rw [List.take_nil, numbersAfter, List.take_nil]
  | cons first rest ih =>
    cases k with
    | zero => rfl
    | succ k => rw [List.take_succ_cons, numbersAfter, numbersAfter, List.take_succ_cons, ih]

theorem numbers_take (explicit : List (Option Int64)) (k : Nat) :
    numbers (explicit.take k) = (numbers explicit).take k :=
  numbersAfter_take (-1) explicit k

/-- Explicit values are the numbers. -/
theorem numbersAfter_of_explicit {explicit : List (Option Int64)}
    (h : ∀ value ∈ explicit, value.isSome = true) (previous : Int) :
    numbersAfter previous explicit = explicit.map fun value => (value.getD 0).toInt := by
  induction explicit generalizing previous with
  | nil => rfl
  | cons first rest ih =>
    obtain ⟨hfirst, hrest⟩ := List.forall_mem_cons.mp h
    obtain ⟨value, rfl⟩ := Option.isSome_iff_exists.mp hfirst
    rw [numbersAfter, ih hrest]
    rfl

variable {index : Nat} {previous value : Int64} {explicit : List (Option Int64)}
  {values seen : List Int64}

/-- The next discriminant is the explicit one, or one more than the previous without overflow. -/
theorem next_eq_some {first : Option Int64} : next previous first = some value ↔
    value.toInt = first.elim (previous.toInt + 1) Int64.toInt := by
  cases first with
  | some number => simp [next, Int64.toInt_inj, eq_comm]
  | none =>
    have hlow := previous.le_toInt
    have hhigh := previous.toInt_lt
    -- only behind the greatest number there is no next one
    by_cases hmax : previous = Int64.maxValue
    · have hvalue := value.toInt_lt
      have := congrArg Int64.toInt hmax
      rw [Int64.toInt_maxValue] at this
      simp only [next, hmax, if_true, reduceCtorEq, false_iff, Option.elim_none]
      rw [Int64.toInt_maxValue]
      omega
    · have hne : previous.toInt ≠ Int64.maxValue.toInt := fun h => hmax (Int64.toInt_inj.mp h)
      rw [Int64.toInt_maxValue] at hne
      have hsum : (previous + 1).toInt = previous.toInt + 1 := by
        rw [Int64.toInt_add]
        exact Int.bmod_eq_of_le (by simp; omega) (by simp; omega)
      rw [next, if_neg hmax, Option.some_inj, ← Int64.toInt_inj, hsum, Option.elim_none, eq_comm]

/-- Discriminants are assigned just if all numbers, counted without a bound, fit, and then they are
these numbers. -/
theorem assignFrom_eq_ok : assignFrom index previous explicit = .ok values ↔
    values.map Int64.toInt = numbersAfter previous.toInt explicit := by
  induction explicit generalizing index previous values with
  | nil => simp [assignFrom, numbersAfter, eq_comm]
  | cons first rest ih =>
    rw [assignFrom, numbersAfter, List.map_eq_cons_iff]
    rcases hnext : next previous first with _ | value
    · refine iff_of_false (by simp) ?_
      rintro ⟨value, _, -, hvalue, -⟩
      rw [next_eq_some.mpr hvalue] at hnext
      cases hnext
    · have hvalue := next_eq_some.mp hnext
      dsimp only
      rw [map_eq_ok, ← hvalue]
      constructor
      · rintro ⟨later, hlater, rfl⟩
        exact ⟨value, later, rfl, rfl, ih.mp hlater⟩
      · rintro ⟨v, later, rfl, hv, hlater⟩
        obtain rfl := Int64.toInt_inj.mp hv
        exact ⟨later, ih.mpr hlater, rfl⟩

theorem assign_eq_ok :
    assign explicit = .ok values ↔ values.map Int64.toInt = numbers explicit :=
  assignFrom_eq_ok

/-- No assignment fails but for a number that 64 bits do not hold. -/
theorem exists_assign : (∃ values, assign explicit = .ok values) ↔
    ∀ n ∈ numbers explicit, Int64.minValue.toInt ≤ n ∧ n ≤ Int64.maxValue.toInt := by
  simp only [assign_eq_ok, Int64.toInt_minValue, Int64.toInt_maxValue]
  constructor
  · rintro ⟨values, hvalues⟩ n hn
    rw [← hvalues] at hn
    obtain ⟨value, -, rfl⟩ := List.mem_map.mp hn
    have hlow := value.le_toInt
    have hhigh := value.toInt_lt
    omega
  · intro h
    refine ⟨(numbers explicit).map Int64.ofInt, ?_⟩
    rw [List.map_map]
    refine (List.map_congr_left fun n hn => ?_).trans (List.map_id _)
    obtain ⟨hlow, hhigh⟩ := h n hn
    exact Int64.toInt_ofInt_of_le (by omega) (by omega)

theorem collisionAfter_eq_none (hseen : seen.Nodup) :
    collisionAfter seen values = none ↔ (seen ++ values).Nodup := by
  induction values generalizing seen with
  | nil => simp [collisionAfter, hseen]
  | cons value values ih =>
    rw [collisionAfter]
    rcases hfirst : seen.idxOf? value with _ | first
    · have hnew := List.idxOf?_eq_none_iff.mp hfirst
      have hnext : (seen ++ [value]).Nodup := nodup_snoc.mpr ⟨hnew, hseen⟩
      dsimp only
      rw [ih hnext, List.append_assoc, List.singleton_append]
    · have hmem : value ∈ seen := by
        by_contra hnew
        rw [List.idxOf?_eq_none_iff.mpr hnew] at hfirst
        cases hfirst
      exact iff_of_false (by simp) fun hnodup => not_mem_of_nodup_append_cons hnodup hmem

/-- No collision is found just if all discriminants differ. -/
theorem firstCollision?_eq_none : firstCollision? values = none ↔ values.Nodup :=
  collisionAfter_eq_none List.nodup_nil

end MessageSchema.Discriminant
