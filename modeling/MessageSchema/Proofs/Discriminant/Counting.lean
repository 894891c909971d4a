import MessageSchema.Proofs.Discriminant

/-!
# The number at a position

The number at a position is counted on from the last explicit one at or before it, and from 0 at the
first position if there is none (`NumberAt`). Main statement: `countsOn_assign`.

- **Positions** (`getElem?_numbers`): `numbers` lists these numbers, so there is one at each
  position (`existsUnique_numberAt`).
- **Overflow** (`assign_eq_error`): what `assign` reports is the first position whose number is
  greater than what 64 bits hold. It is no explicit one (`absent_of_firstBeyond`).
-/

namespace MessageSchema.Discriminant

/-- The last explicit value at or before position `i` is the one at position `j`. -/
structure LastExplicit (explicit : List (Option Int64)) (i j : Nat) (value : Int64) : Prop where
  le : j ≤ i
  value : explicit[j]? = some (some value)
  absent : ∀ k, j < k → k ≤ i → explicit[k]? = some none

/-- There is no explicit value at or before position `i`. -/
def NoExplicit (explicit : List (Option Int64)) (i : Nat) : Prop :=
  ∀ k ≤ i, explicit[k]? = some none

/-- The number `n` at position `i`, where the first position counts from `start`. -/
def NumberFrom (start : Int) (explicit : List (Option Int64)) (i : Nat) (n : Int) : Prop :=
  (∃ j value, LastExplicit explicit i j value ∧ n = value.toInt + (i - j)) ∨
    NoExplicit explicit i ∧ n = start + i

/-- The number `n` at position `i`: as much greater than the last explicit one as its position is
further on, or the position itself. -/
def NumberAt (explicit : List (Option Int64)) (i : Nat) (n : Int) : Prop :=
  (∃ j value, LastExplicit explicit i j value ∧ n = value.toInt + (i - j)) ∨
    NoExplicit explicit i ∧ n = i

section Positions

variable {first : Option Int64} {rest explicit : List (Option Int64)} {i j : Nat} {value : Int64}
  {n : Int}

theorem lastExplicit_cons_succ :
    LastExplicit (first :: rest) (i + 1) (j + 1) value ↔ LastExplicit rest i j value := by
  constructor
  · intro h
    refine ⟨Nat.le_of_succ_le_succ h.le, h.value, fun k hjk hki => ?_⟩
    exact h.absent (k + 1) (Nat.succ_lt_succ hjk) (Nat.succ_le_succ hki)
  · intro h
    refine ⟨Nat.succ_le_succ h.le, h.value, fun k hjk hki => ?_⟩
    obtain ⟨k, rfl⟩ := Nat.exists_eq_add_one_of_ne_zero (Nat.ne_zero_of_lt hjk)
    exact h.absent k (Nat.lt_of_succ_lt_succ hjk) (Nat.le_of_succ_le_succ hki)

theorem lastExplicit_cons_zero :
    LastExplicit (first :: rest) (i + 1) 0 value ↔ first = some value ∧ NoExplicit rest i := by
  constructor
  · intro h
    refine ⟨Option.some_inj.mp h.value, fun k hki => ?_⟩
    exact h.absent (k + 1) (Nat.succ_pos k) (Nat.succ_le_succ hki)
  · rintro ⟨rfl, h⟩
    refine ⟨Nat.zero_le _, rfl, fun k hk hki => ?_⟩
    obtain ⟨k, rfl⟩ := Nat.exists_eq_add_one_of_ne_zero (Nat.ne_zero_of_lt hk)
    exact h k (Nat.le_of_succ_le_succ hki)

theorem noExplicit_cons :
    NoExplicit (first :: rest) (i + 1) ↔ first = none ∧ NoExplicit rest i := by
  constructor
  · intro h
    exact ⟨Option.some_inj.mp (h 0 (Nat.zero_le _)), fun k hk => h (k + 1) (Nat.succ_le_succ hk)⟩
  · rintro ⟨rfl, h⟩ k hk
    cases k with
    | zero => rfl
    | succ k => exact h k (Nat.le_of_succ_le_succ hk)

/-- The first member has its explicit number, or the start. -/
theorem numberFrom_cons_zero {start : Int} :
    NumberFrom start (first :: rest) 0 n ↔ n = first.elim start Int64.toInt := by
  constructor
  · rintro (⟨j, value, h, rfl⟩ | ⟨h, rfl⟩)
    · obtain rfl := Nat.le_zero.mp h.le
      obtain rfl : first = some value := Option.some_inj.mp h.value
      simp
    · obtain rfl : first = none := Option.some_inj.mp (h 0 (Nat.le_refl 0))
      simp
  · rintro rfl
    cases first with
    | none =>
      refine .inr ⟨fun k hk => ?_, by simp⟩
      obtain rfl := Nat.le_zero.mp hk
      rfl
    | some value => exact .inl ⟨0, value, ⟨Nat.le_refl 0, rfl, fun k hk hk0 => by omega⟩, by simp⟩

/-- Behind the first member counting starts anew, one above its number. -/
theorem numberFrom_cons_succ {start : Int} :
    NumberFrom start (first :: rest) (i + 1) n ↔
      NumberFrom (first.elim start Int64.toInt + 1) rest i n := by
  constructor
  · -- the last explicit value is the first of all, one of the others, or there is none
    rintro (⟨_ | j, value, h, rfl⟩ | ⟨h, rfl⟩)
    · obtain ⟨rfl, hrest⟩ := lastExplicit_cons_zero.mp h
      refine .inr ⟨hrest, ?_⟩
      dsimp only [Option.elim_some]
      omega
    · refine .inl ⟨j, value, lastExplicit_cons_succ.mp h, ?_⟩
      omega
    · obtain ⟨rfl, hrest⟩ := noExplicit_cons.mp h
      refine .inr ⟨hrest, ?_⟩
      dsimp only [Option.elim_none]
      omega
  · rintro (⟨j, value, h, rfl⟩ | ⟨h, rfl⟩)
    · refine .inl ⟨j + 1, value, lastExplicit_cons_succ.mpr h, ?_⟩
      omega
    · cases first with
      | none =>
        refine .inr ⟨noExplicit_cons.mpr ⟨rfl, h⟩, ?_⟩
        dsimp only [Option.elim_none]
        omega
      | some value =>
        refine .inl ⟨0, value, lastExplicit_cons_zero.mpr ⟨rfl, h⟩, ?_⟩
        dsimp only [Option.elim_some]
        omega

/-- Numbers behind a previous one count on from it up to the first explicit one. -/
theorem getElem?_numbersAfter (previous : Int) :
    (numbersAfter previous explicit)[i]? = some n ↔ NumberFrom (previous + 1) explicit i n := by
  induction explicit generalizing previous i with
  | nil =>
    refine iff_of_false (by simp [numbersAfter]) ?_
    rintro (⟨j, value, h, -⟩ | ⟨h, -⟩)
    · cases h.value
    · cases h 0 (Nat.zero_le i)
  | cons first rest ih =>
    rw [numbersAfter]
    cases i with
    | zero =>
      rw [List.getElem?_cons_zero, numberFrom_cons_zero, Option.some_inj, eq_comm]
    | succ i => rw [List.getElem?_cons_succ, numberFrom_cons_succ, ih]

/-- `numbers` lists the numbers at the positions. -/
theorem getElem?_numbers : (numbers explicit)[i]? = some n ↔ NumberAt explicit i n := by
  have hstart : (-1 + 1 + i : Int) = i := by omega
  rw [numbers, getElem?_numbersAfter, NumberFrom, NumberAt, hstart]

/-- Every member has exactly one number. -/
theorem existsUnique_numberAt (h : i < explicit.length) : ∃! n, NumberAt explicit i n := by
  have hlength : i < (numbers explicit).length := by rwa [numbers, length_numbersAfter]
  refine ⟨(numbers explicit)[i], getElem?_numbers.mp (List.getElem?_eq_getElem hlength), ?_⟩
  intro n hn
  rw [← getElem?_numbers, List.getElem?_eq_getElem hlength] at hn
  exact (Option.some_inj.mp hn).symm

end Positions

/-! ## Overflow -/

/-- The first position of a number that is greater than `bound`. -/
structure FirstAbove (bound : Int) (numbers : List Int) (k : Nat) : Prop where
  above : ∃ n, numbers[k]? = some n ∧ bound < n
  before : ∀ j < k, ∀ n, numbers[j]? = some n → n ≤ bound

section Above

variable {bound n : Int} {numbers : List Int} {k : Nat}

theorem firstAbove_cons_of_lt (h : bound < n) : FirstAbove bound (n :: numbers) k ↔ k = 0 := by
  constructor
  · intro hk
    by_contra hne
    have := hk.before 0 (Nat.pos_of_ne_zero hne) n rfl
    omega
  · rintro rfl
    exact ⟨⟨n, rfl, h⟩, fun j hj => absurd hj (Nat.not_lt_zero j)⟩

theorem firstAbove_cons_of_le (h : n ≤ bound) :
    FirstAbove bound (n :: numbers) k ↔ ∃ i, k = i + 1 ∧ FirstAbove bound numbers i := by
  constructor
  · rintro ⟨⟨m, hm, hlt⟩, hbefore⟩
    cases k with
    | zero =>
      obtain rfl : n = m := Option.some_inj.mp hm
      omega
    | succ i =>
      exact ⟨i, rfl, ⟨m, hm, hlt⟩, fun j hj => hbefore (j + 1) (Nat.succ_lt_succ hj)⟩
  · rintro ⟨i, rfl, habove, hbefore⟩
    refine ⟨habove, fun j hj m hm => ?_⟩
    cases j with
    | zero =>
      obtain rfl : n = m := Option.some_inj.mp hm
      exact h
    | succ j => exact hbefore j (Nat.lt_of_succ_lt_succ hj) m hm

/-- The first number above the bound in a prefix is the first of all. -/
theorem FirstAbove.of_take {length : Nat} (h : FirstAbove bound (numbers.take length) k) :
    FirstAbove bound numbers k := by
  obtain ⟨n, hn, hlt⟩ := h.above
  have hk : k < length := by
    by_contra hle
    rw [List.getElem?_eq_none (by rw [List.length_take]; omega)] at hn
    cases hn
  have htake : ∀ i ≤ k, (numbers.take length)[i]? = numbers[i]? :=
    fun i hi => List.getElem?_take_of_lt (by omega)
  refine ⟨⟨n, htake k (Nat.le_refl k) ▸ hn, hlt⟩, fun i hi m hm => h.before i hi m ?_⟩
  rwa [htake i (Nat.le_of_lt hi)]

/-- If some number is above the bound, there is a first. -/
theorem exists_firstAbove (h : ∃ n ∈ numbers, bound < n) : ∃ k, FirstAbove bound numbers k := by
  induction numbers with
  | nil => simp at h
  | cons n numbers ih =>
    by_cases hn : bound < n
    · exact ⟨0, (firstAbove_cons_of_lt hn).mpr rfl⟩
    · obtain ⟨m, hm, hlt⟩ := h
      have hrest : m ∈ numbers := by
        rcases List.mem_cons.mp hm with rfl | hm
        · exact absurd hlt hn
        · exact hm
      obtain ⟨k, hk⟩ := ih ⟨m, hrest, hlt⟩
      exact ⟨k + 1, (firstAbove_cons_of_le (by omega)).mpr ⟨k, rfl, hk⟩⟩

end Above

section Overflow

variable {index : Nat} {previous : Int64} {explicit later : List (Option Int64)}
  {overflow : Overflow} {out : List Int64}

/-- A value is missing where the number is too great. -/
theorem next_eq_none {first : Option Int64} :
    next previous first = none ↔
      Int64.maxValue.toInt < first.elim (previous.toInt + 1) Int64.toInt := by
  rw [Int64.toInt_maxValue]
  cases first with
  | some value =>
    have hvalue := value.toInt_lt
    refine iff_of_false nofun ?_
    rw [Option.elim_some]
    omega
  | none =>
    have hprevious := previous.toInt_lt
    have hmax : previous = Int64.maxValue ↔ previous.toInt = 2 ^ 63 - 1 := by
      rw [← Int64.toInt_inj, Int64.toInt_maxValue]
    rw [next, Option.elim_none, ite_eq_left_iff]
    simp only [reduceCtorEq, imp_false, not_not, hmax]
    omega

/-- The overflow is reported for the first number that does not fit, whatever stands behind it. -/
theorem assignFrom_eq_error :
    assignFrom index previous explicit = .error overflow ↔
      ∃ k, overflow = ⟨index + k⟩ ∧
        FirstAbove Int64.maxValue.toInt (numbersAfter previous.toInt explicit) k := by
  induction explicit generalizing index previous with
  | nil =>
    refine iff_of_false nofun ?_
    rintro ⟨k, -, ⟨n, hn, -⟩, -⟩
    cases hn
  | cons first rest ih =>
    rw [assignFrom, numbersAfter]
    -- a number is above the bound just if there is no next discriminant
    rcases hnext : next previous first with _ | value
    · simp only [firstAbove_cons_of_lt (next_eq_none.mp hnext), exists_eq_right, Nat.add_zero,
        Except.error.injEq, eq_comm]
    · have hvalue := next_eq_some.mp hnext
      have hle : first.elim (previous.toInt + 1) Int64.toInt ≤ Int64.maxValue.toInt := by
        by_contra hlt
        rw [next_eq_none.mpr (by omega)] at hnext
        cases hnext
      have hrest : (assignFrom (index + 1) value rest).map (value :: ·) = .error overflow ↔
          assignFrom (index + 1) value rest = .error overflow := by
        cases assignFrom (index + 1) value rest <;> simp [Except.map]
      simp only [firstAbove_cons_of_le hle]
      rw [hrest, ih, hvalue]
      constructor
      · rintro ⟨k, rfl, hk⟩
        exact ⟨k + 1, by rw [Nat.add_assoc, Nat.add_comm 1 k], k, rfl, hk⟩
      · rintro ⟨_, rfl, k, rfl, hk⟩
        exact ⟨k, by rw [Nat.add_assoc, Nat.add_comm 1 k], hk⟩

theorem assign_eq_error : assign explicit = .error ⟨index⟩ ↔
    FirstAbove Int64.maxValue.toInt (numbers explicit) index := by
  rw [assign, assignFrom_eq_error]
  constructor
  · rintro ⟨k, hk, h⟩
    obtain rfl : index = k := by simpa using hk
    exact h
  · intro h
    exact ⟨index, by simp, h⟩

/-- The first position whose number is greater than what 64 bits hold. -/
structure FirstBeyond (explicit : List (Option Int64)) (index : Nat) : Prop where
  beyond : ∃ n, NumberAt explicit index n ∧ Int64.maxValue.toInt < n
  before : ∀ i < index, ∀ n, NumberAt explicit i n → n ≤ Int64.maxValue.toInt

theorem firstBeyond_iff : FirstBeyond explicit index ↔
    FirstAbove Int64.maxValue.toInt (numbers explicit) index := by
  constructor
  · rintro ⟨⟨n, hn, hlt⟩, hbefore⟩
    exact ⟨⟨n, getElem?_numbers.mpr hn, hlt⟩,
      fun i hi n hn => hbefore i hi n (getElem?_numbers.mp hn)⟩
  · rintro ⟨⟨n, hn, hlt⟩, hbefore⟩
    exact ⟨⟨n, getElem?_numbers.mp hn, hlt⟩,
      fun i hi n hn => hbefore i hi n (getElem?_numbers.mpr hn)⟩

/-- A number that is too great is counted on. -/
theorem absent_of_firstBeyond (h : FirstBeyond explicit index) :
    explicit[index]? = some none := by
  obtain ⟨n, ⟨j, value, hlast, rfl⟩ | ⟨hnone, -⟩, hlt⟩ := h.beyond
  · have hvalue := value.toInt_lt
    rw [Int64.toInt_maxValue] at hlt
    refine hlast.absent index ?_ (Nat.le_refl index)
    have := hlast.le
    omega
  · exact hnone index (Nat.le_refl index)

theorem exists_firstBeyond :
    (∃ index, FirstBeyond explicit index) ↔
      ∃ i n, NumberAt explicit i n ∧ Int64.maxValue.toInt < n := by
  constructor
  · rintro ⟨index, ⟨n, hn, hlt⟩, -⟩
    exact ⟨index, n, hn, hlt⟩
  · rintro ⟨i, n, hn, hlt⟩
    have hmem : n ∈ numbers explicit := List.mem_of_getElem? (getElem?_numbers.mpr hn)
    obtain ⟨index, h⟩ := exists_firstAbove ⟨n, hmem, hlt⟩
    exact ⟨index, firstBeyond_iff.mpr h⟩

theorem numbers_append_take (explicit later : List (Option Int64)) :
    numbers explicit = (numbers (explicit ++ later)).take explicit.length := by
  rw [← numbers_take, List.take_left]

/-- A prefix of members that have discriminants has the same ones. -/
theorem assign_of_append (h : assign (explicit ++ later) = .ok out) :
    assign explicit = .ok (out.take explicit.length) := by
  rw [assign_eq_ok] at h ⊢
  rw [List.map_take, h, ← numbers_append_take]

/-- Members behind an overflow do not change it. -/
theorem assign_append_of_error (h : assign explicit = .error overflow) :
    assign (explicit ++ later) = .error overflow := by
  obtain ⟨index⟩ := overflow
  rw [assign_eq_error] at h ⊢
  rw [numbers_append_take explicit later] at h
  exact h.of_take

/-- Discriminants that are made explicit are assigned again. -/
theorem assign_map_some (values : List Int64) : assign (values.map some) = .ok values := by
  have hsome : ∀ value ∈ values.map some, value.isSome = true := by simp
  rw [assign_eq_ok, numbers, numbersAfter_of_explicit hsome, List.map_map]
  rfl

end Overflow

/-- What `assign` comes to, position by position. -/
structure CountsOn (explicit : List (Option Int64)) : Prop where
  numbered : ∀ i < explicit.length, ∃! n, NumberAt explicit i n
  values : ∀ out, assign explicit = .ok out ↔
    out.length = explicit.length ∧ ∀ i value, out[i]? = some value → NumberAt explicit i value.toInt
  fails : (∃ index, assign explicit = .error ⟨index⟩) ↔
    ∃ i n, NumberAt explicit i n ∧ Int64.maxValue.toInt < n
  overflow : ∀ index, assign explicit = .error ⟨index⟩ ↔ FirstBeyond explicit index
  absent : ∀ index, assign explicit = .error ⟨index⟩ → explicit[index]? = some none
  append : ∀ later out, assign (explicit ++ later) = .ok out →
    ∃ first, assign explicit = .ok first ∧ first <+: out
  append_error : ∀ later index, assign explicit = .error ⟨index⟩ →
    assign (explicit ++ later) = .error ⟨index⟩
  again : ∀ out, assign explicit = .ok out → assign (out.map some) = .ok out

theorem assign_eq_ok_iff_numberAt {explicit : List (Option Int64)} {out : List Int64} :
    assign explicit = .ok out ↔ out.length = explicit.length ∧
      ∀ i value, out[i]? = some value → NumberAt explicit i value.toInt := by
  rw [assign_eq_ok]
  constructor
  · intro h
    refine ⟨?_, fun i value hvalue => getElem?_numbers.mp ?_⟩
    · rw [← List.length_map (f := Int64.toInt), h, numbers, length_numbersAfter]
    · rw [← h, List.getElem?_map, hvalue, Option.map_some]
  · rintro ⟨hlength, hvalues⟩
    have hnumbers : (numbers explicit).length = out.length := by
      rw [numbers, length_numbersAfter, hlength]
    refine List.ext_getElem? fun i => ?_
    rw [List.getElem?_map]
    rcases hvalue : out[i]? with _ | value
    · rw [List.getElem?_eq_none_iff] at hvalue
      exact (List.getElem?_eq_none (by omega)).symm
    · exact (getElem?_numbers.mpr (hvalues i value hvalue)).symm

/-- Values are counted on from the last explicit one, as far as 64 bits go; what follows them
changes nothing, and they stay what they are when they are made explicit. -/
theorem countsOn_assign (explicit : List (Option Int64)) : CountsOn explicit where
  numbered _ hi := existsUnique_numberAt hi
  values _ := assign_eq_ok_iff_numberAt
  fails := by
    simp only [assign_eq_error, ← firstBeyond_iff]
    exact exists_firstBeyond
  overflow _ := assign_eq_error.trans firstBeyond_iff.symm
  absent _ h := absent_of_firstBeyond (firstBeyond_iff.mpr (assign_eq_error.mp h))
  append _ out h := ⟨_, assign_of_append h, List.take_prefix _ out⟩
  append_error _ _ := assign_append_of_error
  again out _ := assign_map_some out

example : assign [none, some 7, none, some (-2), none] = .ok [0, 7, 8, -2, -1] :=
  rfl

end MessageSchema.Discriminant
