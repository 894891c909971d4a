import MessageSchema.Proofs.Memory.Layout
import MessageSchema.Proofs.Protocol.Valid

/-!
# Looking up messages of a resolved protocol

A protocol and its layouts are searched by name. The names of a resolved protocol differ, so that
the message found is the only one of its name (`exists_namedAt`). Main statement:
`resolve_iff_valid`.
-/

namespace MessageSchema.Protocol

open Memory

theorem map_eq_map_of_forall₂ {α β γ : Type} {xs : List α} {ys : List β} {R : α → β → Prop}
    {f : α → γ} {g : β → γ} (h : List.Forall₂ R xs ys)
    (hkeys : ∀ x y, R x y → g y = f x) : ys.map g = xs.map f := by
  induction h with
  | nil => rfl
  | cons hxy _ ih => rw [List.map_cons, List.map_cons, hkeys _ _ hxy, ih]

/-! ## Layouts -/

variable {policy : DiscriminantPolicy} {p : Protocol} {model : DataModel} {order : ByteOrder}
  {l : ProtocolLayout} {e : TaggedMessage}

/-- The record of a message, with the names and the discriminant of the message. -/
structure IsRecordOf (r : RecordLayout) (m : Message) (d : Int64) : Prop where
  name : r.name = m.name
  shortName : r.shortName = m.shortName
  discriminant : r.discriminant = d

theorem isRecordOf_of_ofTagged {r : RecordLayout} (h : RecordLayout.ofTagged model e = .ok r) :
    IsRecordOf r e.message e.discriminant := by
  obtain ⟨_, -, ⟨-, rfl⟩ | ⟨_, _, -, -, rfl⟩⟩ := RecordLayout.ofTagged_eq_ok h
  · exact ⟨rfl, rfl, rfl⟩
  · exact ⟨rfl, rfl, rfl⟩

/-- The records are those of the entries, in the same order. -/
theorem areRecordsOf (h : ProtocolLayout.compute p model order = .ok l) :
    List.Forall₂ (fun e r => IsRecordOf r e.message e.discriminant) p.entries l.records := by
  obtain ⟨records, hrecords, rfl⟩ := ProtocolLayout.compute_eq_ok h
  exact (mapM_eq_ok.mp hrecords).imp fun e r her => isRecordOf_of_ofTagged her

theorem names_records (h : ProtocolLayout.compute p model order = .ok l) :
    l.records.map (·.name) = p.messages.map (·.name) := by
  rw [messages, List.map_map]
  exact map_eq_map_of_forall₂ (areRecordsOf h) fun _ _ hr => hr.name

theorem discriminants_records (h : ProtocolLayout.compute p model order = .ok l) :
    l.records.map (·.discriminant) = p.discriminants :=
  map_eq_map_of_forall₂ (areRecordsOf h) fun _ _ hr => hr.discriminant

theorem exists_record (h : ProtocolLayout.compute p model order = .ok l) (he : e ∈ p.entries) :
    ∃ r ∈ l.records, IsRecordOf r e.message e.discriminant := by
  have hall := areRecordsOf h
  obtain ⟨i, hi, rfl⟩ := List.getElem_of_mem he
  have hrecord : i < l.records.length := hall.length_eq ▸ hi
  exact ⟨l.records[i], List.getElem_mem hrecord, hall.get hi hrecord⟩

/-! ## Lookups -/

/-- The name is that of the message at this position, and of no other. -/
structure NamedAt (p : Protocol) (name : String) (i : Nat) (m : Message) (d : Int64) : Prop where
  message_eq : p.messages[i]? = some m
  discriminant_eq : p.discriminants[i]? = some d
  name_eq : m.name = name
  only : ∀ j n, p.messages[j]? = some n → n.name = name → j = i

/-- Whatever is looked up by the name is that of the message and its discriminant. -/
structure Finds (p : Protocol) (name : String) (m : Message) (d : Int64) : Prop where
  message? : p.message? name = some m
  discriminant? : p.discriminant? name = some d
  record? : ∀ model order l, ProtocolLayout.compute p model order = .ok l →
    ∃ r, l.record? name = some r ∧ IsRecordOf r m d

/-- Nothing is to be found by the name. -/
structure FindsNothing (p : Protocol) (name : String) : Prop where
  message? : p.message? name = none
  discriminant? : p.discriminant? name = none
  record? : ∀ model order l, ProtocolLayout.compute p model order = .ok l →
    l.record? name = none

/-- A message of the protocol is found by its name. -/
theorem finds_of_mem (hnames : (p.messages.map (·.name)).Nodup) (he : e ∈ p.entries) :
    Finds p e.message.name e.message e.discriminant := by
  have hfind : p.find? e.message.name = some e :=
    find?_key_eq_some (fun e : TaggedMessage => e.message.name)
      (by rwa [messages, List.map_map] at hnames) he
  refine ⟨by rw [message?, hfind]; rfl, by rw [discriminant?, hfind]; rfl, ?_⟩
  intro model order l hl
  obtain ⟨r, hr, hrecord⟩ := exists_record hl he
  refine ⟨r, ?_, hrecord⟩
  rw [← hrecord.name]
  exact find?_key_eq_some RecordLayout.name (by rwa [names_records hl]) hr

/-- Nothing is found by any other name. -/
theorem findsNothing_of_not_mem {name : String} (h : name ∉ p.messages.map (·.name)) :
    FindsNothing p name := by
  have hfind : p.find? name = none :=
    find?_key_eq_none (fun e : TaggedMessage => e.message.name)
      (by rwa [messages, List.map_map] at h)
  refine ⟨by rw [message?, hfind]; rfl, by rw [discriminant?, hfind]; rfl, ?_⟩
  intro model order l hl
  exact find?_key_eq_none RecordLayout.name (by rwa [names_records hl])

theorem exists_namedAt (hnames : (p.messages.map (·.name)).Nodup) (he : e ∈ p.entries) :
    ∃ i, NamedAt p e.message.name i e.message e.discriminant := by
  obtain ⟨i, hi⟩ := List.mem_iff_getElem?.mp he
  have hmessage : p.messages[i]? = some e.message := by
    rw [messages, List.getElem?_map, hi]
    rfl
  have hdiscriminant : p.discriminants[i]? = some e.discriminant := by
    rw [discriminants, List.getElem?_map, hi]
    rfl
  refine ⟨i, hmessage, hdiscriminant, rfl, fun j n hn hname => ?_⟩
  have hj : j < (p.messages.map (·.name)).length := by
    rw [List.length_map]
    exact (List.getElem?_eq_some_iff.mp hn).1
  refine (List.getElem?_inj hj hnames).mp ?_
  rw [List.getElem?_map, List.getElem?_map, hn, hmessage, Option.map_some, Option.map_some, hname]

/-- What a list of messages is resolved as: a protocol of these messages with their numbers, in
which a name finds the only message of that name, or nothing if there is none. -/
structure ResolvedAs (list : List Message) (p : Protocol) : Prop where
  messages : p.messages = list
  numbers : p.discriminants.map Int64.toInt = numbers list
  found : ∀ name ∈ list.map (·.name), ∃ i m d, NamedAt p name i m d ∧ Finds p name m d
  missing : ∀ name ∉ list.map (·.name), FindsNothing p name

/-- Valid messages with their numbers make a protocol that says all of them. -/
theorem resolvedAs_of_valid (h : Valid policy p.messages)
    (hnumbers : p.discriminants.map Int64.toInt = numbers p.messages) :
    ResolvedAs p.messages p where
  messages := rfl
  numbers := hnumbers
  found name hname := by
    rw [Protocol.messages, List.map_map] at hname
    obtain ⟨e, he, rfl⟩ := List.mem_map.mp hname
    obtain ⟨i, hi⟩ := exists_namedAt h.nodup_names he
    exact ⟨i, e.message, e.discriminant, hi, finds_of_mem h.nodup_names he⟩
  missing _ := findsNothing_of_not_mem

namespace Sample

/-- The first number that a C `int` holds, the one after it, and the last. -/
def messages : List Message :=
  [{ name := "LOW", shortName := "low", explicitValue := some (-2147483648),
     fields := [.ofPair "int" "_x"], tail := some ⟨"char", "data"⟩ },
   { name := "NEXT", shortName := "next" },
   { name := "HIGH", shortName := "high", explicitValue := some 2147483647 }]

/-- Their protocol. -/
def protocol : Protocol :=
  ⟨List.zipWith TaggedMessage.mk messages [-2147483648, -2147483647, 2147483647]⟩

theorem resolve_messages : resolve .unique messages = .ok protocol :=
  rfl

end Sample

/-- Valid messages are resolved and no others, and what is then looked up by a name is that of the
only message with the name. -/
theorem resolve_iff_valid (policy : DiscriminantPolicy) (messages : List Message) :
    ((∃ p, resolve policy messages = .ok p) ↔ Valid policy messages) ∧
      ∀ p, resolve policy messages = .ok p → ResolvedAs messages p := by
  refine ⟨exists_resolve, fun p hp => ?_⟩
  obtain ⟨hvalid, rfl, hnumbers⟩ := resolve_eq_ok.mp hp
  exact resolvedAs_of_valid hvalid hnumbers

theorem resolve_iff_valid_sample :
    Valid .unique Sample.messages ∧ resolve .unique Sample.messages = .ok Sample.protocol ∧
      ResolvedAs Sample.messages Sample.protocol :=
  ⟨(resolve_iff_valid .unique Sample.messages).1.mp ⟨_, Sample.resolve_messages⟩,
    Sample.resolve_messages,
    (resolve_iff_valid .unique Sample.messages).2 _ Sample.resolve_messages⟩

end MessageSchema.Protocol
