import MessageSchema.Proofs.Discriminant.Collision
import MessageSchema.Proofs.Except
import MessageSchema.Proofs.Protocol.Valid

/-!
# Messages that share a discriminant

Under the policy `unique`, messages that are valid but for a number that several of them have are
refused, and the error names the first message that has the number of an earlier one, and that
earlier one (`FirstShared`, `resolve_eq_shared`). Main statement: `findsCollisions`.

- **Checks** (`checkMessagesAfter_ne_shared`): no other check ends in this error.
- **Assignment** (`assignDiscriminants_eq_shared`): it comes from the search among the
  discriminants, where all of them fit a C `int`.
-/

namespace MessageSchema.Protocol

variable {policy : DiscriminantPolicy} {messages earlier : List Message} {m : Message}
  {message name first second : String} {before names : List String} {value : Int64}
  {values : List Int64} {error : ResolveError} {i : Nat}

/-! ## Checks -/

theorem checkMember_ne_shared :
    checkMember message before name ≠ .error (.duplicateDiscriminant value first second) := by
  unfold checkMember
  split
  · simp
  split
  · simp
  split
  · simp
  split <;> simp

theorem checkMembersAfter_ne_shared :
    checkMembersAfter message before names ≠ .error (.duplicateDiscriminant value first second) := by
  induction names generalizing before with
  | nil => simp [checkMembersAfter]
  | cons name names ih =>
    rw [checkMembersAfter, ne_eq, bind_eq_error, not_or]
    refine ⟨checkMember_ne_shared, ?_⟩
    rintro ⟨_, -, h⟩
    exact ih h

theorem checkMembers_ne_shared :
    checkMembers m ≠ .error (.duplicateDiscriminant value first second) := by
  rw [checkMembers, ne_eq, bind_eq_error, not_or]
  refine ⟨checkMembersAfter_ne_shared, ?_⟩
  rintro ⟨_, -, h⟩
  split at h
  · cases h
  · split at h <;> cases h

theorem checkMessage_ne_shared :
    checkMessage earlier m ≠ .error (.duplicateDiscriminant value first second) := by
  unfold checkMessage
  split
  · simp
  split
  · simp
  split
  · simp
  split
  · simp
  · exact checkMembers_ne_shared

/-- No check of the messages complains of a shared discriminant. -/
theorem checkMessagesAfter_ne_shared : checkMessagesAfter earlier messages ≠
    .error (.duplicateDiscriminant value first second) := by
  induction messages generalizing earlier with
  | nil => simp [checkMessagesAfter]
  | cons m messages ih =>
    rw [checkMessagesAfter, ne_eq, bind_eq_error, not_or]
    refine ⟨checkMessage_ne_shared, ?_⟩
    rintro ⟨_, -, h⟩
    exact ih h

theorem resolve_eq_error : resolve policy messages = .error error ↔
    checkMessagesAfter [] messages = .error error ∨
      checkMessagesAfter [] messages = .ok () ∧
        assignDiscriminants policy messages = .error error := by
  rw [resolve, bind_eq_error]
  refine or_congr Iff.rfl ?_
  constructor
  · rintro ⟨_, hchecks, h⟩
    obtain h | ⟨_, -, h⟩ := bind_eq_error.mp h
    · exact ⟨hchecks, h⟩
    · cases h
  · rintro ⟨hchecks, h⟩
    exact ⟨_, hchecks, bind_eq_error.mpr (.inl h)⟩

/-! ## Assignment -/

/-- Messages are valid but for numbers that they may share, if they pass the checks and their
numbers fit a C `int`. -/
theorem valid_permissive : Valid .permissive messages ↔
    checkMessagesAfter [] messages = .ok () ∧
      ∀ n ∈ numbers messages, -2147483648 ≤ n ∧ n ≤ 2147483647 := by
  rw [checkMessages_eq_ok]
  constructor
  · intro h
    exact ⟨⟨h.valid, h.nodup_names, h.nodup_shortNames⟩, h.in_range⟩
  · rintro ⟨⟨hvalid, hnames, hshortNames⟩, hrange⟩
    refine ⟨hvalid, hnames, hshortNames, fun n hn => ?_, hrange, nofun⟩
    have := hrange n hn
    rw [Int64.toInt_minValue, Int64.toInt_maxValue]
    omega

/-- An assignment complains of the first discriminant that two messages share. -/
theorem assignDiscriminants_eq_shared :
    assignDiscriminants policy messages = .error (.duplicateDiscriminant value first second) ↔
      policy = .unique ∧ ∃ values,
        Discriminant.assign (messages.map (·.explicitValue)) = .ok values ∧
          (∀ e ∈ List.zipWith TaggedMessage.mk messages values, fitsInt e.discriminant = true) ∧
          ∃ i j, Discriminant.firstCollision? values = some (i, j) ∧
            values[j]?.getD 0 = value ∧ nameAt messages i = first ∧ nameAt messages j = second := by
  obtain ⟨overflow, hassign, h⟩ | ⟨values, hassign, ⟨e, he, hnot, h⟩ |
    ⟨hfits, ⟨i, j, rfl, hcollision, h⟩ | ⟨hnone, h⟩⟩⟩ := assignDiscriminants_cases policy messages
  · simp [h, hassign]
  all_goals simp only [h, hassign, Except.ok.injEq, exists_eq_left']
  · refine iff_of_false nofun ?_
    rintro ⟨-, hfits, -⟩
    rw [hfits e he] at hnot
    cases hnot
  · simp only [hcollision, Except.error.injEq, ResolveError.duplicateDiscriminant.injEq,
      Option.some.injEq, Prod.mk.injEq, true_and]
    constructor
    · intro h
      exact ⟨hfits, i, j, ⟨rfl, rfl⟩, h⟩
    · rintro ⟨-, _, _, ⟨rfl, rfl⟩, h⟩
      exact h
  · refine iff_of_false nofun ?_
    rintro ⟨rfl, -, i, j, hcollision, -⟩
    rw [hnone rfl] at hcollision
    cases hcollision

/-- The first message that has the number of an earlier one, and that earlier one, by their
names. -/
def FirstShared (messages : List Message) (number : Int) (first second : String) : Prop :=
  ∃ i j m n, FirstRepeat (numbers messages) i j ∧ (numbers messages)[j]? = some number ∧
    messages[i]? = some m ∧ m.name = first ∧ messages[j]? = some n ∧ n.name = second

theorem nameAt_eq_iff (h : i < messages.length) :
    nameAt messages i = name ↔ ∃ m, messages[i]? = some m ∧ m.name = name := by
  rw [nameAt, List.getElem?_eq_getElem h]
  simp

/-- What the search finds among discriminants are the messages of their numbers. -/
theorem firstShared_iff (h : values.map Int64.toInt = numbers messages) :
    FirstShared messages value.toInt first second ↔
      ∃ i j, Discriminant.firstCollision? values = some (i, j) ∧
        values[j]?.getD 0 = value ∧ nameAt messages i = first ∧ nameAt messages j = second := by
  have hlength := length_of_map_eq_numbers h
  have hinj : Function.Injective Int64.toInt := fun _ _ => Int64.toInt_inj.mp
  have hrepeat (i j : Nat) : FirstRepeat (numbers messages) i j ↔
      Discriminant.firstCollision? values = some (i, j) := by
    rw [Discriminant.firstCollision?_eq_some, ← h, firstRepeat_map hinj]
  constructor
  · rintro ⟨i, j, m, n, hij, hnumber, hm, hfirst, hn, hsecond⟩
    refine ⟨i, j, (hrepeat i j).mp hij, ?_, ?_, ?_⟩
    · rw [← h, List.getElem?_map] at hnumber
      obtain ⟨found, hfound, hvalue⟩ := Option.map_eq_some_iff.mp hnumber
      rw [hfound, Option.getD_some]
      exact hinj hvalue
    · exact (nameAt_eq_iff (List.getElem?_eq_some_iff.mp hm).1).mpr ⟨m, hm, hfirst⟩
    · exact (nameAt_eq_iff (List.getElem?_eq_some_iff.mp hn).1).mpr ⟨n, hn, hsecond⟩
  · rintro ⟨i, j, hcollision, hvalue, hfirst, hsecond⟩
    have hij := Discriminant.firstCollision?_eq_some.mp hcollision
    have hlt := hij.lt
    have hj := hij.lt_length
    obtain ⟨m, hm⟩ := (nameAt_eq_iff (by omega)).mp hfirst
    obtain ⟨n, hn⟩ := (nameAt_eq_iff (by omega)).mp hsecond
    refine ⟨i, j, m, n, (hrepeat i j).mpr hcollision, ?_, hm.1, hm.2, hn.1, hn.2⟩
    rw [← h, List.getElem?_map, List.getElem?_eq_getElem hj, ← hvalue,
      List.getElem?_eq_getElem hj]
    rfl

theorem forall_fitsInt_zipWith (h : values.map Int64.toInt = numbers messages) :
    (∀ e ∈ List.zipWith TaggedMessage.mk messages values, fitsInt e.discriminant = true) ↔
      ∀ n ∈ numbers messages, -2147483648 ≤ n ∧ n ≤ 2147483647 := by
  obtain ⟨-, hvalues⟩ := (eq_zipWith_iff (length_of_map_eq_numbers h)).mp rfl
  exact forall_fitsInt_iff (p := ⟨_⟩) ((congrArg _ hvalues).trans h)

/-- Messages are refused for the first discriminant that they share just under the unique policy and
if nothing else is wrong. -/
theorem resolve_eq_shared :
    resolve policy messages = .error (.duplicateDiscriminant value first second) ↔
      policy = .unique ∧ Valid .permissive messages ∧
        FirstShared messages value.toInt first second := by
  rw [resolve_eq_error, or_iff_right checkMessagesAfter_ne_shared, assignDiscriminants_eq_shared]
  constructor
  · rintro ⟨hchecks, hpolicy, values, hvalues, hfits, hshared⟩
    have hnumbers : values.map Int64.toInt = numbers messages :=
      Discriminant.assign_eq_ok.mp hvalues
    have hrange := (forall_fitsInt_zipWith hnumbers).mp hfits
    exact ⟨hpolicy, valid_permissive.mpr ⟨hchecks, hrange⟩, (firstShared_iff hnumbers).mpr hshared⟩
  · rintro ⟨hpolicy, hvalid, hshared⟩
    obtain ⟨hchecks, hrange⟩ := valid_permissive.mp hvalid
    obtain ⟨values, hvalues, hnumbers⟩ := hvalid.exists_assign
    exact ⟨hchecks, hpolicy, values, hvalues, (forall_fitsInt_zipWith hnumbers).mpr hrange,
      (firstShared_iff hnumbers).mp hshared⟩

/-- Of valid messages the two that are named are different ones. -/
theorem FirstShared.ne {number : Int} (hvalid : Valid policy messages)
    (h : FirstShared messages number first second) : first ≠ second := by
  obtain ⟨i, j, m, n, hij, -, hm, rfl, hn, rfl⟩ := h
  intro hname
  have hbound : i < (messages.map (·.name)).length := by
    rw [List.length_map]
    exact (List.getElem?_eq_some_iff.mp hm).1
  refine Nat.ne_of_lt hij.lt ((List.getElem?_inj hbound hvalid.nodup_names).mp ?_)
  rw [List.getElem?_map, List.getElem?_map, hm, hn, Option.map_some, Option.map_some, hname]

/-- Messages are refused for a number that several of them have, if everything else about them is
valid. -/
theorem exists_resolve_eq_shared : (∃ value first second,
    resolve .unique messages = .error (.duplicateDiscriminant value first second)) ↔
      Valid .permissive messages ∧ ¬ (numbers messages).Nodup := by
  constructor
  · rintro ⟨value, first, second, h⟩
    obtain ⟨-, hvalid, i, j, -, -, hij, -⟩ := resolve_eq_shared.mp h
    exact ⟨hvalid, hij.not_nodup⟩
  · rintro ⟨hvalid, hnumbers⟩
    obtain ⟨values, -, heq⟩ := hvalid.exists_assign
    rw [← heq, nodup_map_toInt, ← Discriminant.firstCollision?_eq_none] at hnumbers
    obtain ⟨⟨i, j⟩, hcollision⟩ := Option.ne_none_iff_exists'.mp hnumbers
    exact ⟨_, _, _, resolve_eq_shared.mpr
      ⟨rfl, hvalid, (firstShared_iff heq).mpr ⟨i, j, hcollision, rfl, rfl, rfl⟩⟩⟩

/-- What is said about messages that share a discriminant. -/
structure NamesShared (messages : List Message) : Prop where
  reported : ∀ value first second,
    resolve .unique messages = .error (.duplicateDiscriminant value first second) ↔
      Valid .permissive messages ∧ FirstShared messages value.toInt first second
  refused : (∃ value first second,
    resolve .unique messages = .error (.duplicateDiscriminant value first second)) ↔
      Valid .permissive messages ∧ ¬ (numbers messages).Nodup
  differ : ∀ value first second,
    resolve .unique messages = .error (.duplicateDiscriminant value first second) → first ≠ second
  permitted : ∀ value first second,
    resolve .permissive messages ≠ .error (.duplicateDiscriminant value first second)

/-- The search finds the first value that stands a second time, and where it has stood before; the
messages there are the ones that are named. -/
theorem findsCollisions :
    (∀ values, Discriminant.FindsRepeat values) ∧ ∀ messages, NamesShared messages := by
  refine ⟨Discriminant.findsRepeat, fun messages => ?_⟩
  have hreported (value : Int64) (first second : String) :
      resolve .unique messages = .error (.duplicateDiscriminant value first second) ↔
        Valid .permissive messages ∧ FirstShared messages value.toInt first second :=
    resolve_eq_shared.trans (and_iff_right rfl)
  refine ⟨hreported, exists_resolve_eq_shared, ?_, ?_⟩
  · intro value first second h
    obtain ⟨hvalid, hshared⟩ := (hreported value first second).mp h
    exact hshared.ne hvalid
  · intro value first second h
    obtain ⟨hpolicy, -⟩ := resolve_eq_shared.mp h
    cases hpolicy

example : resolve .unique
    [{ name := "A", shortName := "a" }, { name := "B", shortName := "b" },
      { name := "C", shortName := "c", explicitValue := some 1 }] =
    .error (.duplicateDiscriminant 1 "B" "C") :=
  rfl

end MessageSchema.Protocol
