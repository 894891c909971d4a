import MessageSchema.Proofs.Discriminant

/-!
# The first value that stands a second time

`FirstRepeat values i j` says that the value at position `j` is the first of all that has stood
before, and that it has at `i`. No list has two such pairs (`FirstRepeat.unique`).

- **The search** (`firstCollision?_eq_some`): behind values that differ it finds this pair
  (`collisionAfter_eq_some`).
- **A table** (`collisionWith`): the search can keep the positions of the values it has gone
  through in a table and look them up. What carries it is that every value of these has its only
  position in the table, and no other value has one (`Indexes`); one more value keeps that
  (`Indexes.insert`), so both searches find the same (`collisionWith_eq`).

Both are put together in `findsRepeat`.
-/

namespace MessageSchema

theorem getElem?_snoc {α : Type} {xs : List α} {x y : α} {i : Nat} :
    (xs ++ [x])[i]? = some y ↔ xs[i]? = some y ∨ i = xs.length ∧ x = y := by
  rcases Nat.lt_trichotomy i xs.length with hi | rfl | hi
  · rw [List.getElem?_append_left hi]
    exact (or_iff_left fun h => Nat.ne_of_lt hi h.1).symm
  · simp
  · rw [List.getElem?_append_right (Nat.le_of_lt hi), List.getElem?_eq_none (by simp; omega),
      List.getElem?_eq_none (Nat.le_of_lt hi)]
    simp only [reduceCtorEq, false_or, false_iff, not_and]
    omega

/-- The first item that stands a second time: it stands at position `j`, and before that only at
position `i`. -/
structure FirstRepeat {α : Type} (xs : List α) (i j : Nat) : Prop where
  lt : i < j
  same : ∃ x, xs[i]? = some x ∧ xs[j]? = some x
  nodup : (xs.take j).Nodup
  only : ∀ k < j, xs[k]? = xs[j]? → k = i

section Repeat

variable {α β : Type} {xs ys : List α} {x : α} {i j i' j' k : Nat}

theorem FirstRepeat.lt_length (h : FirstRepeat xs i j) : j < xs.length := by
  obtain ⟨x, -, hx⟩ := h.same
  exact (List.getElem?_eq_some_iff.mp hx).1

/-- In front of the second item of a pair the first one stands alone. -/
theorem FirstRepeat.le_of_nodup_take (h : FirstRepeat xs i j) (hk : (xs.take k).Nodup) :
    k ≤ j := by
  by_contra hjk
  have hlt := h.lt
  have hlength := h.lt_length
  obtain ⟨x, hi, hj⟩ := h.same
  have hsame : (xs.take k)[i]? = (xs.take k)[j]? := by
    rw [List.getElem?_take_of_lt (by omega), List.getElem?_take_of_lt (by omega), hi, hj]
  have hbound : i < (xs.take k).length := by
    rw [List.length_take]
    omega
  have hij := (List.getElem?_inj hbound hk).mp hsame
  omega

theorem FirstRepeat.not_nodup (h : FirstRepeat xs i j) : ¬ xs.Nodup := by
  intro hxs
  rw [← List.take_length (l := xs)] at hxs
  exact absurd (h.le_of_nodup_take hxs) (by have := h.lt_length; omega)

/-- There is only one first repeat. -/
theorem FirstRepeat.unique (h : FirstRepeat xs i j) (h' : FirstRepeat xs i' j') :
    i = i' ∧ j = j' := by
  obtain rfl : j = j' :=
    Nat.le_antisymm (h'.le_of_nodup_take h.nodup) (h.le_of_nodup_take h'.nodup)
  obtain ⟨x, hi, hj⟩ := h.same
  exact ⟨h'.only i h.lt (hi.trans hj.symm), rfl⟩

/-- An item that has stood before ends a run of different items. -/
theorem firstRepeat_append_cons (hxs : xs.Nodup) (hx : xs[i]? = some x) :
    FirstRepeat (xs ++ x :: ys) i xs.length := by
  have hi := (List.getElem?_eq_some_iff.mp hx).1
  have hlast : (xs ++ x :: ys)[xs.length]? = some x := by
    rw [List.getElem?_append_right (Nat.le_refl _), Nat.sub_self, List.getElem?_cons_zero]
  refine ⟨hi, ⟨x, ?_, hlast⟩, by rwa [List.take_left], fun k hk hsame => ?_⟩
  · rw [List.getElem?_append_left hi, hx]
  · rw [hlast, List.getElem?_append_left hk, ← hx] at hsame
    exact (List.getElem?_inj hk hxs).mp hsame

/-- An injective map keeps the positions of a first repeat. -/
theorem firstRepeat_map {f : α → β} (hf : Function.Injective f) :
    FirstRepeat (xs.map f) i j ↔ FirstRepeat xs i j := by
  have hinj := Option.map_injective hf
  constructor
  · rintro ⟨hlt, ⟨y, hi, hj⟩, hnodup, honly⟩
    simp only [List.getElem?_map] at hi hj honly
    obtain ⟨x, hx, rfl⟩ := Option.map_eq_some_iff.mp hj
    refine ⟨hlt, ⟨x, hinj hi, hx⟩, ?_, fun k hk hsame => ?_⟩
    · rw [← List.map_take] at hnodup
      exact (List.nodup_map_iff hf).mp hnodup
    · exact honly k hk (congrArg _ hsame)
  · rintro ⟨hlt, ⟨x, hi, hj⟩, hnodup, honly⟩
    refine ⟨hlt, ⟨f x, ?_, ?_⟩, ?_, fun k hk hsame => ?_⟩
    · rw [List.getElem?_map, hi, Option.map_some]
    · rw [List.getElem?_map, hj, Option.map_some]
    · rw [← List.map_take]
      exact (List.nodup_map_iff hf).mpr hnodup
    · rw [List.getElem?_map, List.getElem?_map] at hsame
      exact honly k hk (hinj hsame)

end Repeat

namespace Discriminant

variable {values seen earlier : List Int64} {value : Int64} {i j : Nat}

/-- Behind values that differ, the search finds the first repeat of all values together. -/
theorem collisionAfter_eq_some (hseen : seen.Nodup) :
    collisionAfter seen values = some (i, j) ↔ FirstRepeat (seen ++ values) i j := by
  induction values generalizing seen with
  | nil =>
    refine iff_of_false nofun fun h => h.not_nodup ?_
    rwa [List.append_nil]
  | cons value values ih =>
    rw [collisionAfter]
    rcases hfirst : seen.idxOf? value with _ | first
    · have hnew := List.idxOf?_eq_none_iff.mp hfirst
      have hnext : (seen ++ [value]).Nodup := nodup_snoc.mpr ⟨hnew, hseen⟩
      dsimp only
      rw [ih hnext, List.append_assoc, List.singleton_append]
    · obtain ⟨hbound, hvalue, -⟩ := List.idxOf?_eq_some_iff.mp hfirst
      have hrepeat : FirstRepeat (seen ++ value :: values) first seen.length :=
        firstRepeat_append_cons hseen (List.getElem?_eq_some_iff.mpr ⟨hbound, hvalue⟩)
      dsimp only
      rw [Option.some_inj, Prod.mk.injEq]
      constructor
      · rintro ⟨rfl, rfl⟩
        exact hrepeat
      · exact hrepeat.unique

/-- The positions found are those of the first repeat. -/
theorem firstCollision?_eq_some :
    firstCollision? values = some (i, j) ↔ FirstRepeat values i j :=
  collisionAfter_eq_some List.nodup_nil

/-! ## A table of positions -/

/-- `firstCollision?` from position `index` on, with a table of the positions of the values before
it. -/
def collisionWith (table : Std.HashMap Int64 Nat) (index : Nat) : List Int64 → Option (Nat × Nat)
  | [] => none
  | value :: rest =>
    match table[value]? with
    | some first => some (first, index)
    | none => collisionWith (table.insert value index) (index + 1) rest

/-- The table has the positions of these values, and no others. -/
def Indexes (table : Std.HashMap Int64 Nat) (earlier : List Int64) : Prop :=
  ∀ (value : Int64) (i : Nat), table[value]? = some i ↔ earlier[i]? = some value

variable {table : Std.HashMap Int64 Nat}

theorem indexes_empty : Indexes ∅ [] := by
  intro value i
  simp

/-- The table gives the first position of every value. -/
theorem Indexes.getElem?_eq (h : Indexes table earlier) (value : Int64) :
    table[value]? = earlier.idxOf? value := by
  rcases hfirst : earlier.idxOf? value with _ | first
  · rw [Option.eq_none_iff_forall_ne_some]
    intro i hi
    exact List.idxOf?_eq_none_iff.mp hfirst (List.mem_of_getElem? ((h value i).mp hi))
  · obtain ⟨hbound, hvalue, -⟩ := List.idxOf?_eq_some_iff.mp hfirst
    exact (h value first).mpr (List.getElem?_eq_some_iff.mpr ⟨hbound, hvalue⟩)

/-- A table goes on with a value that it has no position for. -/
theorem Indexes.insert (h : Indexes table earlier) (hnew : table[value]? = none) :
    Indexes (table.insert value earlier.length) (earlier ++ [value]) := by
  intro other i
  rw [Std.HashMap.getElem?_insert, getElem?_snoc, ← h other i]
  by_cases hother : value = other
  · subst hother
    simp [hnew, eq_comm]
  · simp [hother]

/-- The search by a table finds what the search through the values finds. -/
theorem collisionWith_eq (h : Indexes table earlier) :
    collisionWith table earlier.length values = collisionAfter earlier values := by
  induction values generalizing table earlier with
  | nil => rfl
  | cons value values ih =>
    rw [collisionWith, collisionAfter, ← h.getElem?_eq value]
    rcases hfirst : table[value]? with _ | first
    · have hnext := ih (h.insert hfirst)
      rwa [List.length_append] at hnext
    · rfl

/-- What the search for a value that stands a second time comes to. -/
structure FindsRepeat (values : List Int64) : Prop where
  none : firstCollision? values = none ↔ values.Nodup
  some : ∀ i j, firstCollision? values = some (i, j) ↔ FirstRepeat values i j
  table : collisionWith ∅ 0 values = firstCollision? values

theorem findsRepeat (values : List Int64) : FindsRepeat values where
  none := firstCollision?_eq_none
  some _ _ := firstCollision?_eq_some
  table := collisionWith_eq indexes_empty

example : firstCollision? [0, 1, 10, 11, 1, 2] = some (1, 4) :=
  rfl

end Discriminant

end MessageSchema
