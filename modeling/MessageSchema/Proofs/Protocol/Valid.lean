import MessageSchema.Proofs.Discriminant
import MessageSchema.Proofs.Text
import MessageSchema.Protocol

/-!
# Which messages make a protocol

`Valid policy messages` says what the messages of a protocol must be, message by message and
number by number. `resolve` accepts these and no others (`exists_resolve`), and gives the messages
back with their numbers (`resolve_eq_ok`). So every message of a protocol has members of different
names (`nodup_memberNames`) that are C identifiers (`isIdentifier_memberNames`), and every
discriminant fits a C `int` (`fitsInt_of_resolve`). Messages that look alike to the checks make a
protocol just if the others do (`exists_resolve_of_alike`).
-/

namespace MessageSchema

namespace Text

/-- The letters of C identifiers. -/
def IsLetter (c : Char) : Prop :=
  'A' ≤ c ∧ c ≤ 'Z' ∨ 'a' ≤ c ∧ c ≤ 'z'

/-- The digits of C identifiers. -/
def IsDigit (c : Char) : Prop :=
  '0' ≤ c ∧ c ≤ '9'

/-- A letter or an underscore, and then letters, digits and underscores. -/
def IsCIdentifier (s : String) : Prop :=
  ∃ first rest, s.toList = first :: rest ∧ (IsLetter first ∨ first = '_') ∧
    ∀ c ∈ rest, IsLetter c ∨ IsDigit c ∨ c = '_'

variable {c : Char}

theorem isWordStart_iff : isWordStart c = true ↔ IsLetter c ∨ c = '_' := by
  delta isWordStart Char.isAlpha Char.isUpper Char.isLower
  simp only [Bool.or_eq_true, Bool.and_eq_true, decide_eq_true_eq, beq_iff_eq]
  exact Iff.rfl

theorem isWordChar_iff_isLetter : isWordChar c = true ↔ IsLetter c ∨ IsDigit c ∨ c = '_' := by
  delta isWordChar Char.isAlphanum Char.isAlpha Char.isUpper Char.isLower Char.isDigit
  simp only [Bool.or_eq_true, Bool.and_eq_true, decide_eq_true_eq, beq_iff_eq, or_assoc]
  exact or_assoc.symm

/-- The check for identifiers accepts those of C. -/
theorem isIdentifier_iff {s : String} : isIdentifier s = true ↔ IsCIdentifier s := by
  unfold isIdentifier IsCIdentifier
  rcases s.toList with _ | ⟨first, rest⟩
  · simp [isIdentifierChars]
  · simp only [isIdentifierChars, Bool.and_eq_true, isWordStart_iff, List.all_eq_true,
      isWordChar_iff_isLetter, List.cons.injEq]
    constructor
    · rintro ⟨hfirst, hrest⟩
      exact ⟨first, rest, ⟨rfl, rfl⟩, hfirst, hrest⟩
    · rintro ⟨_, _, ⟨rfl, rfl⟩, hfirst, hrest⟩
      exact ⟨hfirst, hrest⟩

end Text

namespace Protocol

open Text

/-! ## Members -/

/-- The names that no member can have: those of the envelope, and those that the constructors use
for themselves. -/
def reservedNames : List String :=
  ["type", "size", "msg", "out_msg", "allocator", "alloc_result"]

/-- A message whose members can stand in one record. -/
structure ValidMembers (m : Message) : Prop where
  identifiers : ∀ name ∈ m.memberNames, IsCIdentifier name
  nodup : m.memberNames.Nodup
  unreserved : ∀ name ∈ m.memberNames, name ∉ reservedNames
  tailCount : ∀ tail, m.tail = some tail → tail.name ++ "_count" ∉ m.memberNames

variable {policy : DiscriminantPolicy} {messages earlier : List Message} {m : Message}
  {message name : String} {before names : List String}

theorem not_mem_reservedNames :
    name ∉ reservedNames ↔ name ∉ envelopeMembers ∧ name ∉ constructorNames := by
  have hnames : reservedNames = envelopeMembers ++ constructorNames := rfl
  rw [hnames, List.mem_append, not_or]

theorem checkMember_eq_ok : checkMember message before name = .ok () ↔ isIdentifier name = true ∧
    name ∉ envelopeMembers ∧ name ∉ constructorNames ∧ name ∉ before := by
  unfold checkMember
  split
  · simp_all
  split
  · simp_all
  split
  · simp_all
  split <;> simp_all

theorem checkMembersAfter_eq_ok (hbefore : before.Nodup) :
    checkMembersAfter message before names = .ok () ↔
      (∀ name ∈ names, IsCIdentifier name ∧ name ∉ reservedNames) ∧ (before ++ names).Nodup := by
  induction names generalizing before with
  | nil => simp [checkMembersAfter, hbefore]
  | cons name names ih =>
    rw [checkMembersAfter, check_bind_eq_ok, checkMember_eq_ok, isIdentifier_iff,
      List.forall_mem_cons, ← List.singleton_append (l := names), ← List.append_assoc]
    constructor
    · rintro ⟨⟨hident, henvelope, hconstructor, hnew⟩, hrest⟩
      obtain ⟨hnames, hnodup⟩ := (ih (nodup_snoc.mpr ⟨hnew, hbefore⟩)).mp hrest
      exact ⟨⟨⟨hident, not_mem_reservedNames.mpr ⟨henvelope, hconstructor⟩⟩, hnames⟩, hnodup⟩
    · rintro ⟨⟨⟨hident, hname⟩, hnames⟩, hnodup⟩
      obtain ⟨henvelope, hconstructor⟩ := not_mem_reservedNames.mp hname
      have hnext : (before ++ [name]).Nodup := (List.nodup_append.mp hnodup).1
      exact ⟨⟨hident, henvelope, hconstructor, (nodup_snoc.mp hnext).1⟩,
        (ih hnext).mpr ⟨hnames, hnodup⟩⟩

/-- The members of a message pass the checks just if they are valid. -/
theorem checkMembers_eq_ok : checkMembers m = .ok () ↔ ValidMembers m := by
  rw [checkMembers, check_bind_eq_ok, checkMembersAfter_eq_ok List.nodup_nil, List.nil_append]
  constructor
  · rintro ⟨⟨hnames, hnodup⟩, htail⟩
    refine ⟨fun n hn => (hnames n hn).1, hnodup, fun n hn => (hnames n hn).2, ?_⟩
    intro tail hsome hcount
    rw [hsome] at htail
    dsimp only at htail
    rw [Tail.countParameter, if_pos hcount] at htail
    cases htail
  · intro h
    refine ⟨⟨fun n hn => ⟨h.identifiers n hn, h.unreserved n hn⟩, h.nodup⟩, ?_⟩
    rcases hsome : m.tail with _ | tail
    · rfl
    · exact if_neg (h.tailCount tail hsome)

/-! ## Messages -/

/-- Messages whose names are identifiers and whose members can stand in records. -/
structure ValidMessage (m : Message) : Prop where
  name : IsCIdentifier m.name
  shortName : IsCIdentifier m.shortName
  members : ValidMembers m

theorem checkMessage_eq_ok : checkMessage earlier m = .ok () ↔
    isIdentifier m.name = true ∧ isIdentifier m.shortName = true ∧
      m.name ∉ earlier.map (·.name) ∧ m.shortName ∉ earlier.map (·.shortName) ∧
      checkMembers m = .ok () := by
  unfold checkMessage
  split
  · simp_all
  split
  · simp_all
  split
  · simp_all
  split <;> simp_all

theorem checkMessagesAfter_eq_ok (hnames : (earlier.map (·.name)).Nodup)
    (hshortNames : (earlier.map (·.shortName)).Nodup) :
    checkMessagesAfter earlier messages = .ok () ↔ (∀ m ∈ messages, ValidMessage m) ∧
      ((earlier ++ messages).map (·.name)).Nodup ∧
      ((earlier ++ messages).map (·.shortName)).Nodup := by
  induction messages generalizing earlier with
  | nil => simp [checkMessagesAfter, hnames, hshortNames]
  | cons m messages ih =>
    rw [checkMessagesAfter, check_bind_eq_ok, checkMessage_eq_ok, isIdentifier_iff,
      isIdentifier_iff, checkMembers_eq_ok, List.forall_mem_cons,
      ← List.singleton_append (l := messages), ← List.append_assoc]
    have hnext : ((earlier ++ [m]).map (·.name)).Nodup ↔ m.name ∉ earlier.map (·.name) := by
      rw [List.map_append, List.map_singleton, nodup_snoc, and_iff_left hnames]
    have hshortNext : ((earlier ++ [m]).map (·.shortName)).Nodup ↔
        m.shortName ∉ earlier.map (·.shortName) := by
      rw [List.map_append, List.map_singleton, nodup_snoc, and_iff_left hshortNames]
    constructor
    · rintro ⟨⟨hname, hshortName, hnew, hshortNew, hmembers⟩, hrest⟩
      obtain ⟨hvalid, hnodups⟩ := (ih (hnext.mpr hnew) (hshortNext.mpr hshortNew)).mp hrest
      exact ⟨⟨⟨hname, hshortName, hmembers⟩, hvalid⟩, hnodups⟩
    · rintro ⟨⟨hm, hvalid⟩, hnodup, hshortNodup⟩
      have hfirst := (List.nodup_append.mp (List.map_append ▸ hnodup)).1
      have hshortFirst := (List.nodup_append.mp (List.map_append ▸ hshortNodup)).1
      exact ⟨⟨hm.name, hm.shortName, hnext.mp hfirst, hshortNext.mp hshortFirst, hm.members⟩,
        (ih hfirst hshortFirst).mpr ⟨hvalid, hnodup, hshortNodup⟩⟩

/-- Messages pass the checks just if each is valid and neither names nor short names are repeated.
-/
theorem checkMessages_eq_ok : checkMessagesAfter [] messages = .ok () ↔
    (∀ m ∈ messages, ValidMessage m) ∧ (messages.map (·.name)).Nodup ∧
      (messages.map (·.shortName)).Nodup := by
  have hnil (f : Message → String) : ([].map f).Nodup := List.nodup_nil
  exact checkMessagesAfter_eq_ok (hnil _) (hnil _)

/-! ## Numbers -/

/-- The numbers of messages, without a bound. -/
def numbers (messages : List Message) : List Int :=
  Discriminant.numbers (messages.map (·.explicitValue))

/-- Messages that make a protocol. -/
structure Valid (policy : DiscriminantPolicy) (messages : List Message) : Prop where
  valid : ∀ m ∈ messages, ValidMessage m
  nodup_names : (messages.map (·.name)).Nodup
  nodup_shortNames : (messages.map (·.shortName)).Nodup
  no_overflow : ∀ n ∈ numbers messages, Int64.minValue.toInt ≤ n ∧ n ≤ Int64.maxValue.toInt
  in_range : ∀ n ∈ numbers messages, -2147483648 ≤ n ∧ n ≤ 2147483647
  distinct : policy = .unique → (numbers messages).Nodup

variable {p : Protocol} {entries : List TaggedMessage} {values : List Int64} {e : TaggedMessage}

theorem length_of_map_eq_numbers (h : values.map Int64.toInt = numbers messages) :
    values.length = messages.length := by
  have hlength := congrArg List.length h
  rwa [List.length_map, numbers, Discriminant.numbers, Discriminant.length_numbersAfter,
    List.length_map] at hlength

theorem nodup_map_toInt : (values.map Int64.toInt).Nodup ↔ values.Nodup :=
  List.nodup_map_iff fun _ _ => Int64.toInt_inj.mp

theorem fitsInt_iff {d : Int64} :
    fitsInt d = true ↔ -2147483648 ≤ d.toInt ∧ d.toInt ≤ 2147483647 := by
  simp [fitsInt]

theorem forall_fitsInt_iff (h : p.discriminants.map Int64.toInt = numbers messages) :
    (∀ e ∈ p.entries, fitsInt e.discriminant = true) ↔
      ∀ n ∈ numbers messages, -2147483648 ≤ n ∧ n ≤ 2147483647 := by
  rw [← h, discriminants, List.map_map, List.forall_mem_map]
  simp only [Function.comp_apply, fitsInt_iff]

theorem eq_zipWith_iff (hlength : values.length = messages.length) :
    entries = List.zipWith TaggedMessage.mk messages values ↔
      entries.map (·.message) = messages ∧ entries.map (·.discriminant) = values := by
  constructor
  · rintro rfl
    rw [← List.map_uncurry_zip_eq_zipWith, List.map_map, List.map_map]
    exact ⟨List.map_fst_zip (by omega), List.map_snd_zip (by omega)⟩
  · rintro ⟨rfl, rfl⟩
    rw [List.zipWith_map, List.zipWith_self]
    exact (List.map_id _).symm

/-- How an assignment can end: with an overflow, with a number that does not fit a C `int`, with two
numbers that are the same where they must not be, or with the messages and their numbers. -/
theorem assignDiscriminants_cases (policy : DiscriminantPolicy) (messages : List Message) :
    (∃ overflow, Discriminant.assign (messages.map (·.explicitValue)) = .error overflow ∧
      assignDiscriminants policy messages =
        .error (.discriminantOverflow (nameAt messages overflow.index))) ∨
    ∃ values, Discriminant.assign (messages.map (·.explicitValue)) = .ok values ∧
      ((∃ e ∈ List.zipWith TaggedMessage.mk messages values, fitsInt e.discriminant = false ∧
        assignDiscriminants policy messages =
          .error (.discriminantOutOfRange e.message.name e.discriminant)) ∨
      (∀ e ∈ List.zipWith TaggedMessage.mk messages values, fitsInt e.discriminant = true) ∧
        ((∃ i j, policy = .unique ∧ Discriminant.firstCollision? values = some (i, j) ∧
          assignDiscriminants policy messages = .error (.duplicateDiscriminant
            (values[j]?.getD 0) (nameAt messages i) (nameAt messages j))) ∨
        (policy = .unique → Discriminant.firstCollision? values = none) ∧
          assignDiscriminants policy messages =
            .ok (List.zipWith TaggedMessage.mk messages values))) := by
  unfold assignDiscriminants
  rcases hassign : Discriminant.assign (messages.map (·.explicitValue)) with overflow | values
  · exact .inl ⟨overflow, hassign, by rw [hassign]⟩
  refine .inr ⟨values, hassign, ?_⟩
  rcases hfind : List.find? (fun e => !fitsInt e.discriminant)
      (List.zipWith TaggedMessage.mk messages values) with _ | e
  · have hfits : ∀ e ∈ List.zipWith TaggedMessage.mk messages values,
        fitsInt e.discriminant = true := by
      simpa using List.find?_eq_none.mp hfind
    refine .inr ⟨hfits, ?_⟩
    simp only [hassign, hfind]
    rcases hcollision : Discriminant.firstCollision? values with _ | ⟨i, j⟩
    · exact .inr ⟨fun _ => rfl, by cases policy <;> rfl⟩
    · cases policy with
      | unique => exact .inl ⟨i, j, rfl, rfl, rfl⟩
      | permissive => exact .inr ⟨nofun, rfl⟩
  · refine .inl ⟨e, List.mem_of_find?_eq_some hfind, by simpa using List.find?_some hfind, ?_⟩
    simp only [hassign, hfind]

/-- What an assignment comes to under either policy. -/
theorem assignDiscriminants_eq_ok : assignDiscriminants policy messages = .ok entries ↔
    ∃ values, Discriminant.assign (messages.map (·.explicitValue)) = .ok values ∧
      entries = List.zipWith TaggedMessage.mk messages values ∧
      (∀ e ∈ entries, fitsInt e.discriminant = true) ∧ (policy = .unique → values.Nodup) := by
  obtain ⟨overflow, hassign, h⟩ | ⟨values, hassign, ⟨e, he, hnot, h⟩ |
    ⟨hfits, ⟨i, j, rfl, hcollision, h⟩ | ⟨hnone, h⟩⟩⟩ := assignDiscriminants_cases policy messages
  · simp [h, hassign]
  all_goals simp only [h, hassign, Except.ok.injEq, exists_eq_left']
  · refine iff_of_false nofun ?_
    rintro ⟨rfl, hfits, -⟩
    rw [hfits e he] at hnot
    cases hnot
  · refine iff_of_false nofun ?_
    rintro ⟨-, -, hdistinct⟩
    rw [Discriminant.firstCollision?_eq_none.mpr (hdistinct trivial)] at hcollision
    cases hcollision
  · constructor
    · rintro rfl
      exact ⟨rfl, hfits, fun hunique => Discriminant.firstCollision?_eq_none.mp (hnone hunique)⟩
    · rintro ⟨rfl, -⟩
      rfl

/-- The entries of a protocol are its messages with their numbers. -/
theorem assignDiscriminants_eq_entries : assignDiscriminants policy messages = .ok p.entries ↔
    p.messages = messages ∧ p.discriminants.map Int64.toInt = numbers messages ∧
      (∀ n ∈ numbers messages, -2147483648 ≤ n ∧ n ≤ 2147483647) ∧
      (policy = .unique → (numbers messages).Nodup) := by
  rw [assignDiscriminants_eq_ok]
  constructor
  · rintro ⟨values, hvalues, hentries, hfits, hdistinct⟩
    have hnumbers : values.map Int64.toInt = numbers messages :=
      Discriminant.assign_eq_ok.mp hvalues
    obtain ⟨hmessages, rfl⟩ := (eq_zipWith_iff (length_of_map_eq_numbers hnumbers)).mp hentries
    refine ⟨hmessages, hnumbers, (forall_fitsInt_iff hnumbers).mp hfits, ?_⟩
    rwa [← hnumbers, nodup_map_toInt]
  · rintro ⟨hmessages, hnumbers, hrange, hdistinct⟩
    refine ⟨p.discriminants, Discriminant.assign_eq_ok.mpr hnumbers, ?_,
      (forall_fitsInt_iff hnumbers).mpr hrange, ?_⟩
    · exact (eq_zipWith_iff (length_of_map_eq_numbers hnumbers)).mpr ⟨hmessages, rfl⟩
    · rwa [← nodup_map_toInt, hnumbers]

theorem Valid.exists_assign (h : Valid policy messages) : ∃ values,
    Discriminant.assign (messages.map (·.explicitValue)) = .ok values ∧
      values.map Int64.toInt = numbers messages := by
  obtain ⟨values, hvalues⟩ := Discriminant.exists_assign.mpr h.no_overflow
  exact ⟨values, hvalues, Discriminant.assign_eq_ok.mp hvalues⟩

/-! ## Protocols -/

/-- A protocol is resolved from valid messages, and from these it is the only one. -/
theorem resolve_eq_ok : resolve policy messages = .ok p ↔
    Valid policy messages ∧ p.messages = messages ∧
      p.discriminants.map Int64.toInt = numbers messages := by
  have hresolve : resolve policy messages = .ok p ↔ checkMessagesAfter [] messages = .ok () ∧
      assignDiscriminants policy messages = .ok p.entries := by
    rw [resolve, check_bind_eq_ok]
    refine and_congr_right fun _ => ?_
    rcases p with ⟨entries⟩
    rcases assignDiscriminants policy messages with error | assigned <;>
      simp [bind, Except.bind, pure, Except.pure]
  rw [hresolve, checkMessages_eq_ok, assignDiscriminants_eq_entries]
  constructor
  · rintro ⟨⟨hvalid, hnames, hshortNames⟩, hmessages, hnumbers, hrange, hdistinct⟩
    have hoverflow := Discriminant.exists_assign.mp ⟨_, Discriminant.assign_eq_ok.mpr hnumbers⟩
    exact ⟨⟨hvalid, hnames, hshortNames, hoverflow, hrange, hdistinct⟩, hmessages, hnumbers⟩
  · rintro ⟨h, hmessages, hnumbers⟩
    exact ⟨⟨h.valid, h.nodup_names, h.nodup_shortNames⟩, hmessages, hnumbers, h.in_range,
      h.distinct⟩

/-- Messages make a protocol just if they are valid. -/
theorem exists_resolve : (∃ p, resolve policy messages = .ok p) ↔ Valid policy messages := by
  constructor
  · rintro ⟨p, h⟩
    exact (resolve_eq_ok.mp h).1
  · intro h
    obtain ⟨values, -, hnumbers⟩ := h.exists_assign
    obtain ⟨hmessages, hdiscriminants⟩ :=
      (eq_zipWith_iff (length_of_map_eq_numbers hnumbers)).mp rfl
    refine ⟨⟨List.zipWith TaggedMessage.mk messages values⟩, ?_⟩
    refine resolve_eq_ok.mpr ⟨h, hmessages, ?_⟩
    rw [discriminants, hdiscriminants]
    exact hnumbers

/-! ## What the checks look at -/

/-- Messages that do not differ in anything that is checked. -/
structure CheckedAlike (m n : Message) : Prop where
  name : m.name = n.name
  shortName : m.shortName = n.shortName
  explicitValue : m.explicitValue = n.explicitValue
  memberNames : m.memberNames = n.memberNames
  tail : m.tail = n.tail

variable {n : Message} {others : List Message}

theorem CheckedAlike.refl (m : Message) : CheckedAlike m m :=
  ⟨rfl, rfl, rfl, rfl, rfl⟩

theorem ValidMessage.of_alike (hm : ValidMessage m) (h : CheckedAlike m n) : ValidMessage n where
  name := h.name ▸ hm.name
  shortName := h.shortName ▸ hm.shortName
  members :=
    { identifiers := h.memberNames ▸ hm.members.identifiers
      nodup := h.memberNames ▸ hm.members.nodup
      unreserved := h.memberNames ▸ hm.members.unreserved
      tailCount := fun tail htail =>
        h.memberNames ▸ hm.members.tailCount tail (h.tail.trans htail) }

theorem map_eq_of_alike {α : Type} {f : Message → α} (h : List.Forall₂ CheckedAlike messages others)
    (hf : ∀ {m n}, CheckedAlike m n → f m = f n) : messages.map f = others.map f := by
  rw [← List.forall₂_eq_eq_eq, List.forall₂_map_left_iff, List.forall₂_map_right_iff]
  exact h.imp fun _ _ => hf

/-- Valid messages stay so if nothing is changed that is checked. -/
theorem Valid.of_alike (hvalid : Valid policy messages)
    (h : List.Forall₂ CheckedAlike messages others) : Valid policy others := by
  have hnumbers : numbers messages = numbers others :=
    congrArg Discriminant.numbers (map_eq_of_alike h CheckedAlike.explicitValue)
  refine ⟨fun n hn => ?_, ?_, ?_, ?_, ?_, ?_⟩
  · obtain ⟨i, hi, rfl⟩ := List.getElem_of_mem hn
    have hm := hvalid.valid _ (List.getElem_mem (h.length_eq ▸ hi))
    exact hm.of_alike (h.get _ hi)
  · exact map_eq_of_alike h CheckedAlike.name ▸ hvalid.nodup_names
  · exact map_eq_of_alike h CheckedAlike.shortName ▸ hvalid.nodup_shortNames
  · exact hnumbers ▸ hvalid.no_overflow
  · exact hnumbers ▸ hvalid.in_range
  · exact hnumbers ▸ hvalid.distinct

/-- Messages that are checked alike make a protocol if the others do, with the same numbers. -/
theorem exists_resolve_of_alike (hp : resolve policy messages = .ok p)
    (h : List.Forall₂ CheckedAlike messages others) :
    ∃ q, resolve policy others = .ok q ∧ q.messages = others ∧
      q.discriminants = p.discriminants := by
  obtain ⟨hvalid, -, hnumbers⟩ := resolve_eq_ok.mp hp
  obtain ⟨q, hq⟩ := exists_resolve.mpr (hvalid.of_alike h)
  obtain ⟨-, hmessages, hothers⟩ := resolve_eq_ok.mp hq
  refine ⟨q, hq, hmessages, ?_⟩
  have hsame : numbers messages = numbers others :=
    congrArg Discriminant.numbers (map_eq_of_alike h CheckedAlike.explicitValue)
  rw [← hsame, ← hnumbers] at hothers
  exact List.map_injective_iff.mpr (fun _ _ => Int64.toInt_inj.mp) hothers

theorem message_mem (h : resolve policy messages = .ok p) (he : e ∈ p.entries) :
    e.message ∈ messages := by
  obtain ⟨-, rfl, -⟩ := resolve_eq_ok.mp h
  exact List.mem_map_of_mem he

theorem validMessage_of_mem (h : resolve policy messages = .ok p) (he : e ∈ p.entries) :
    ValidMessage e.message :=
  (resolve_eq_ok.mp h).1.valid _ (message_mem h he)

theorem nodup_memberNames (h : resolve policy messages = .ok p) (he : e ∈ p.entries) :
    e.message.memberNames.Nodup :=
  (validMessage_of_mem h he).members.nodup

theorem isIdentifier_memberNames (h : resolve policy messages = .ok p) (he : e ∈ p.entries) :
    ∀ name ∈ e.message.memberNames, isIdentifier name = true :=
  fun name hname => isIdentifier_iff.mpr ((validMessage_of_mem h he).members.identifiers name hname)

/-- The discriminants of a protocol fit a C `int`. -/
theorem fitsInt_of_resolve (h : resolve policy messages = .ok p) (he : e ∈ p.entries) :
    fitsInt e.discriminant = true := by
  obtain ⟨hvalid, -, hnumbers⟩ := resolve_eq_ok.mp h
  exact (forall_fitsInt_iff hnumbers).mpr hvalid.in_range e he

end Protocol

end MessageSchema
