import MessageSchema.Proofs.Generated.Outcome
import MessageSchema.Proofs.Protocol.Lookup

/-!
# The order of messages

Where every message has an explicit discriminant, the order of the messages does not matter. The
entries of a protocol are then the messages with their own values (`entries_eq`), so those of a
rearranged list are a permutation of them, and every check is as happy with the one list as with
the other (`valid_perm`). Main statement: `sameByName_of_perm`.

- **Lookups** (`find?_key_perm`): of keys that differ each finds its own item wherever that stands.
- **Layouts** (`record?_eq`): what a layout has for a name is the layout of the entry of that name.
- **Symbols** (`firstClash?_perm`): a symbol stands twice in a header just if it does in the other.
-/

namespace MessageSchema

namespace Protocol

open Memory Generated

section Rearranged

variable {policy : DiscriminantPolicy} {messages others : List Message} {p q : Protocol}

/-- Every message has a discriminant of its own. -/
def Explicit (messages : List Message) : Prop :=
  ∀ m ∈ messages, m.explicitValue.isSome = true

/-- A message with its explicit discriminant. -/
def ofExplicit (m : Message) : TaggedMessage :=
  ⟨m, m.explicitValue.getD 0⟩

/-- Explicit messages have the numbers that stand in them. -/
theorem numbers_eq (h : Explicit messages) :
    numbers messages = messages.map fun m => (ofExplicit m).discriminant.toInt := by
  have hvalues : ∀ value ∈ messages.map (·.explicitValue), value.isSome = true :=
    List.forall_mem_map.mpr h
  rw [numbers, Discriminant.numbers, Discriminant.numbersAfter_of_explicit hvalues, List.map_map]
  rfl

theorem entries_eq (h : Explicit messages) (hp : resolve policy messages = .ok p) :
    p.entries = messages.map ofExplicit := by
  obtain ⟨-, rfl, hnumbers⟩ := resolve_eq_ok.mp hp
  rw [numbers_eq h, discriminants, Protocol.messages, List.map_map, List.map_map] at hnumbers
  have hvalue := List.map_inj_left.mp hnumbers
  refine (List.map_id p.entries).symm.trans ?_
  rw [Protocol.messages, List.map_map]
  refine List.map_congr_left fun e he => ?_
  have hdiscriminant : e.discriminant = (ofExplicit e.message).discriminant :=
    Int64.toInt_inj.mp (hvalue e he)
  exact congrArg (TaggedMessage.mk e.message) hdiscriminant

theorem Explicit.perm (h : Explicit messages) (hperm : messages.Perm others) : Explicit others :=
  fun m hm => h m (hperm.mem_iff.mpr hm)

theorem numbers_perm (h : Explicit messages) (hperm : messages.Perm others) :
    (numbers messages).Perm (numbers others) := by
  rw [numbers_eq h, numbers_eq (h.perm hperm)]
  exact hperm.map _

/-- Explicit messages stay valid in any order. -/
theorem valid_perm (h : Explicit messages) (hperm : messages.Perm others)
    (hvalid : Valid policy messages) : Valid policy others where
  valid m hm := hvalid.valid m (hperm.mem_iff.mpr hm)
  nodup_names := (hperm.map _).nodup_iff.mp hvalid.nodup_names
  nodup_shortNames := (hperm.map _).nodup_iff.mp hvalid.nodup_shortNames
  no_overflow n hn := hvalid.no_overflow n ((numbers_perm h hperm).mem_iff.mpr hn)
  in_range n hn := hvalid.in_range n ((numbers_perm h hperm).mem_iff.mpr hn)
  distinct hpolicy := (numbers_perm h hperm).nodup_iff.mp (hvalid.distinct hpolicy)

theorem exists_resolve_perm (h : Explicit messages) (hperm : messages.Perm others) :
    (∃ p, resolve policy messages = .ok p) ↔ ∃ q, resolve policy others = .ok q := by
  rw [exists_resolve, exists_resolve]
  exact ⟨valid_perm h hperm, valid_perm (h.perm hperm) hperm.symm⟩

/-- In another order, explicit messages have the same entries, rearranged. -/
theorem entries_perm (h : Explicit messages) (hperm : messages.Perm others)
    (hp : resolve policy messages = .ok p) (hq : resolve policy others = .ok q) :
    p.entries.Perm q.entries := by
  rw [entries_eq h hp, entries_eq (h.perm hperm) hq]
  exact hperm.map _

/-! ## Lookups -/

theorem find?_perm (hp : resolve policy messages = .ok p) (hentries : p.entries.Perm q.entries)
    (name : String) : p.find? name = q.find? name := by
  obtain ⟨hvalid, rfl, -⟩ := resolve_eq_ok.mp hp
  have hnames := hvalid.nodup_names
  rw [Protocol.messages, List.map_map] at hnames
  exact find?_key_perm (fun e : TaggedMessage => e.message.name) hentries hnames name

theorem exists_compute {model : DataModel} {order : ByteOrder} :
    (∃ l, ProtocolLayout.compute p model order = .ok l) ↔
      ∀ e ∈ p.entries, ∃ r, RecordLayout.ofTagged model e = .ok r := by
  rw [← exists_mapM_eq_ok]
  constructor
  · rintro ⟨l, hl⟩
    obtain ⟨records, hrecords, -⟩ := ProtocolLayout.compute_eq_ok hl
    exact ⟨records, hrecords⟩
  · rintro ⟨records, hrecords⟩
    exact ⟨_, bind_eq_ok.mpr ⟨records, hrecords, rfl⟩⟩

theorem find?_records {model : DataModel} {entries : List TaggedMessage}
    {records : List RecordLayout}
    (h : List.Forall₂ (fun e r => RecordLayout.ofTagged model e = .ok r) entries records)
    (name : String) : records.find? (·.name == name) =
      (entries.find? (·.message.name == name)).bind fun e =>
        (RecordLayout.ofTagged model e).toOption := by
  induction h with
  | nil => rfl
  | @cons e r _ _ her _ ih =>
    rw [List.find?_cons, List.find?_cons, (isRecordOf_of_ofTagged her).name]
    split
    · rw [Option.bind_some, her]
      rfl
    · exact ih

/-- What a layout has for a name is the layout of the entry of that name. -/
theorem record?_eq {model : DataModel} {order : ByteOrder} {l : ProtocolLayout}
    (hl : ProtocolLayout.compute p model order = .ok l) (name : String) :
    l.record? name = (p.find? name).bind fun e => (RecordLayout.ofTagged model e).toOption := by
  obtain ⟨records, hrecords, rfl⟩ := ProtocolLayout.compute_eq_ok hl
  exact find?_records (mapM_eq_ok.mp hrecords) name

/-- Symbols clash in one order just if they do in the other. -/
theorem firstClash?_perm (s : Settings) (hentries : p.entries.Perm q.entries) :
    firstClash? (symbols s (targetsOf s p)) = none ↔
      firstClash? (symbols s (targetsOf s q)) = none := by
  rw [firstClash?_eq_none, firstClash?_eq_none]
  have htargets : (targetsOf s p).Perm (targetsOf s q) := hentries.map _
  exact ((((htargets.flatMap_right Target.symbols).cons _).cons _).map _).nodup_iff

end Rearranged

namespace Reversal

/-- Three messages with their own discriminants, two of which are the same. -/
def messages : List Message :=
  [{ name := "OPEN", shortName := "open", explicitValue := some 7, fields := [.ofPair "int" "id"] },
   { name := "TEXT", shortName := "text", explicitValue := some 7, tail := some ⟨"char", "bytes"⟩ },
   { name := "CLOSE", shortName := "close", explicitValue := some (-1) }]

/-- Their protocol. -/
def protocol : Protocol :=
  ⟨messages.map ofExplicit⟩

/-- The protocol of the same messages from the last to the first. -/
def reversed : Protocol :=
  ⟨messages.reverse.map ofExplicit⟩

theorem explicit_messages : Explicit messages := by
  simp [Explicit, messages]

theorem resolve_messages : resolve .permissive messages = .ok protocol :=
  rfl

theorem resolve_reversed : resolve .permissive messages.reverse = .ok reversed :=
  rfl

end Reversal

/-- Whatever is looked up by a name is the same in both protocols, and where one has layouts or a
header so does the other. -/
structure SameByName (p q : Protocol) : Prop where
  message? : ∀ name, p.message? name = q.message? name
  discriminant? : ∀ name, p.discriminant? name = q.discriminant? name
  compute : ∀ model order, (∃ l, ProtocolLayout.compute p model order = .ok l) ↔
    ∃ l, ProtocolLayout.compute q model order = .ok l
  record? : ∀ model order l k, ProtocolLayout.compute p model order = .ok l →
    ProtocolLayout.compute q model order = .ok k → ∀ name, l.record? name = k.record? name
  symbols : ∀ s, firstClash? (symbols s (targetsOf s p)) = none ↔
    firstClash? (symbols s (targetsOf s q)) = none

/-- Messages that all have explicit discriminants make a protocol in any order or in none, and it
is the same for everyone who looks up its messages by name. -/
theorem sameByName_of_perm {messages others : List Message} (h : Explicit messages)
    (hperm : messages.Perm others) (policy : DiscriminantPolicy) :
    ((∃ p, resolve policy messages = .ok p) ↔ ∃ q, resolve policy others = .ok q) ∧
      ∀ p q, resolve policy messages = .ok p → resolve policy others = .ok q → SameByName p q := by
  refine ⟨exists_resolve_perm h hperm, fun p q hp hq => ?_⟩
  have hentries := entries_perm h hperm hp hq
  have hfind := find?_perm hp hentries
  exact
    { message? := fun name => by rw [message?, message?, hfind]
      discriminant? := fun name => by rw [discriminant?, discriminant?, hfind]
      compute := fun model order => by
        rw [exists_compute, exists_compute]
        exact forall_congr' fun e => by rw [hentries.mem_iff]
      record? := fun model order l k hl hk name => by rw [record?_eq hl, record?_eq hk, hfind]
      symbols := fun s => firstClash?_perm s hentries }

theorem sameByName_reversed :
    Explicit Reversal.messages ∧ Reversal.messages.Perm Reversal.messages.reverse ∧
      resolve .permissive Reversal.messages = .ok Reversal.protocol ∧
      resolve .permissive Reversal.messages.reverse = .ok Reversal.reversed ∧
      SameByName Reversal.protocol Reversal.reversed := by
  have hperm := (List.reverse_perm Reversal.messages).symm
  exact ⟨Reversal.explicit_messages, hperm, Reversal.resolve_messages, Reversal.resolve_reversed,
    (sameByName_of_perm Reversal.explicit_messages hperm .permissive).2 _ _
      Reversal.resolve_messages Reversal.resolve_reversed⟩

end Protocol

end MessageSchema
