import Mathlib.Data.List.Nodup

/-!
# Lists without repetitions

Names, columns and discriminants are checked one behind the other against those in front of them:
an item can follow a list if it is not in it (`nodup_snoc`). In a list of items with different keys
a key finds its own item (`find?_key_eq_some`).
-/

namespace MessageSchema

variable {α : Type} {xs ys : List α} {x : α}

theorem nodup_snoc : (xs ++ [x]).Nodup ↔ x ∉ xs ∧ xs.Nodup := by
  rw [← List.concat_eq_append, List.nodup_concat]

theorem not_mem_of_nodup_append_cons (h : (xs ++ x :: ys).Nodup) : x ∉ xs :=
  fun hx => (List.nodup_append.mp h).2.2 x hx x List.mem_cons_self rfl

section Key

variable (key : α → String) {name : String}

/-- Where keys differ no other item has the key of an item. -/
theorem filter_key_eq_singleton (h : (xs.map key).Nodup) (hx : x ∈ xs) :
    xs.filter (fun y => key y == key x) = [x] := by
  induction xs with
  | nil => cases hx
  | cons y ys ih =>
    obtain ⟨hy, hys⟩ := List.nodup_cons.mp h
    rcases List.mem_cons.mp hx with rfl | hx
    · have hnone : ys.filter (fun z => key z == key x) = [] := by
        refine List.filter_eq_nil_iff.mpr fun z hz heq => hy ?_
        rw [← beq_iff_eq.mp heq]
        exact List.mem_map_of_mem hz
      rw [List.filter_cons_of_pos (by simp), hnone]
    · have hne : key y ≠ key x := fun heq => hy (heq ▸ List.mem_map_of_mem hx)
      rw [List.filter_cons_of_neg (by simpa using hne)]
      exact ih hys hx

/-- Where all keys differ, a search for the key of an element finds this element. -/
theorem find?_key_eq_some (h : (xs.map key).Nodup) (hx : x ∈ xs) :
    xs.find? (fun y => key y == key x) = some x := by
  rw [← List.head?_filter, filter_key_eq_singleton key h hx]
  rfl

theorem find?_key_eq_none (h : name ∉ xs.map key) :
    xs.find? (fun y => key y == name) = none := by
  refine List.find?_eq_none.mpr fun y hy heq => h ?_
  rw [← beq_iff_eq.mp heq]
  exact List.mem_map_of_mem hy

/-- Where keys differ the order does not decide what a key finds. -/
theorem find?_key_perm (hperm : xs.Perm ys) (h : (xs.map key).Nodup) (name : String) :
    xs.find? (fun y => key y == name) = ys.find? (fun y => key y == name) := by
  have hys : (ys.map key).Nodup := (hperm.map key).nodup_iff.mp h
  by_cases hname : name ∈ xs.map key
  · obtain ⟨x, hx, rfl⟩ := List.mem_map.mp hname
    rw [find?_key_eq_some key h hx, find?_key_eq_some key hys (hperm.mem_iff.mp hx)]
  · rw [find?_key_eq_none key hname,
      find?_key_eq_none key fun hmem => hname ((hperm.map key).mem_iff.mpr hmem)]

end Key

end MessageSchema
