import Mathlib.Data.List.Flatten
import MessageSchema.Proofs.Generated.Blocks
import MessageSchema.Proofs.Protocol.Lookup

/-!
# Beginnings of protocols

A message is numbered, laid out and written with regard to the messages before it only, and no
check that all messages pass fails for the first of them. So `p.take k`, the protocol of the first
`k` messages of `p`, is what these messages resolve to (`resolve_take`), and its layouts and texts
are the first ones of `p`. Main statement: `keepsBeginnings`.

- **Numbers** (`Discriminant.numbers_take`): a number depends on the values up to its own.
- **Checks** (`valid_take`): each is about every message or every two messages.
- **Layouts** (`compute_take`) and **units** (`generate_take`): one record and one text for each
  message, and among fewer symbols no two agree that did not before.
-/

namespace MessageSchema

namespace Discriminant

/-- Values whose numbers begin alike begin alike. -/
theorem take_eq_of_numbers {explicit others : List (Option Int64)} {values otherValues : List Int64}
    {k : Nat} (hvalues : values.map Int64.toInt = numbers explicit)
    (hothers : otherValues.map Int64.toInt = numbers others)
    (htake : others.take k = explicit.take k) : otherValues.take k = values.take k := by
  refine List.map_injective_iff.mpr (fun _ _ => Int64.toInt_inj.mp) ?_
  rw [List.map_take, List.map_take, hvalues, hothers, ← numbers_take, ← numbers_take, htake]

end Discriminant

namespace Protocol

open Memory Generated

section Beginnings

variable {policy : DiscriminantPolicy} {messages : List Message} {p : Protocol} {k : Nat}

/-- The protocol of the first `k` messages. -/
def take (p : Protocol) (k : Nat) : Protocol :=
  ⟨p.entries.take k⟩

theorem messages_take (p : Protocol) (k : Nat) : (p.take k).messages = p.messages.take k :=
  List.map_take

theorem discriminants_take (p : Protocol) (k : Nat) :
    (p.take k).discriminants = p.discriminants.take k :=
  List.map_take

theorem numbers_take (messages : List Message) (k : Nat) :
    numbers (messages.take k) = (numbers messages).take k := by
  rw [numbers, List.map_take, Discriminant.numbers_take]
  rfl

theorem valid_take (h : Valid policy messages) (k : Nat) : Valid policy (messages.take k) where
  valid m hm := h.valid m (List.mem_of_mem_take hm)
  nodup_names := h.nodup_names.sublist ((List.take_sublist k messages).map _)
  nodup_shortNames := h.nodup_shortNames.sublist ((List.take_sublist k messages).map _)
  no_overflow n hn := h.no_overflow n (List.mem_of_mem_take (numbers_take messages k ▸ hn))
  in_range n hn := h.in_range n (List.mem_of_mem_take (numbers_take messages k ▸ hn))
  distinct hpolicy := by
    rw [numbers_take]
    exact (h.distinct hpolicy).sublist (List.take_sublist k _)

/-- The first messages of a protocol resolve to the beginning of it. -/
theorem resolve_take (h : resolve policy messages = .ok p) (k : Nat) :
    resolve policy (messages.take k) = .ok (p.take k) := by
  obtain ⟨hvalid, rfl, hnumbers⟩ := resolve_eq_ok.mp h
  refine resolve_eq_ok.mpr ⟨valid_take hvalid k, messages_take p k, ?_⟩
  rw [discriminants_take, List.map_take, hnumbers, numbers_take]

/-- And they have the same layouts. -/
theorem compute_take {model : DataModel} {order : ByteOrder} {l : ProtocolLayout}
    (h : ProtocolLayout.compute p model order = .ok l) (k : Nat) :
    ProtocolLayout.compute (p.take k) model order =
      .ok { l with records := l.records.take k } := by
  obtain ⟨records, hrecords, rfl⟩ := ProtocolLayout.compute_eq_ok h
  have hfirst : (p.entries.take k).mapM (RecordLayout.ofTagged model) = .ok (records.take k) :=
    mapM_eq_ok.mpr (List.forall₂_take k (mapM_eq_ok.mp hrecords))
  exact bind_eq_ok.mpr ⟨_, hfirst, rfl⟩

/-- And the same blocks in the units. -/
theorem blocksOf_take (s : Settings) (p : Protocol) (k : Nat) :
    blocksOf s (p.take k) = (blocksOf s p).take k := by
  rw [blocksOf, blocksOf, targetsOf, targetsOf, List.map_map, List.map_map, ← List.map_take]
  rfl

theorem declaredSymbols_take_sublist (s : Settings) (p : Protocol) (k : Nat) :
    (declaredSymbols s (p.take k)).Sublist (declaredSymbols s p) := by
  rw [declaredSymbols, declaredSymbols, messages_take]
  exact (List.Sublist.refl _).append ((List.take_sublist k _).flatMap _)

/-- Where units are generated for a protocol, they are for each beginning with a message. -/
theorem generate_take {s : Settings} {sourceName : String} {units : List Output.OutputUnit}
    (h : generate s p sourceName = .ok units) (hfirst : (p.take k).messages ≠ []) :
    generate s (p.take k) sourceName = .ok (unitsOfProtocol s (p.take k) sourceName) := by
  obtain ⟨-, hsymbols, -⟩ := (generate_eq_ok ..).mp h
  refine (generate_eq_ok ..).mpr ⟨fun hempty => hfirst (List.map_eq_nil_iff.mpr hempty), ?_, rfl⟩
  exact hsymbols.sublist ((declaredSymbols_take_sublist s p k).map _)

/-- The messages with another explicit discriminant for the one at position `k`, or with none. -/
def setExplicit (messages : List Message) (k : Nat) (value : Option Int64) : List Message :=
  messages.modify k fun m => { m with explicitValue := value }

theorem take_setExplicit (messages : List Message) (k : Nat) (value : Option Int64) :
    (setExplicit messages k value).take k = messages.take k := by
  rw [setExplicit, List.take_modify, List.modify_eq_self (List.length_take_le k messages)]

end Beginnings

namespace Growth

/-- A message with a field and a discriminant of its own. -/
def messages : List Message :=
  [{ name := "OPEN", shortName := "open", explicitValue := some 3, fields := [.ofPair "int" "id"] }]

/-- What comes behind it. -/
def added : Message :=
  { name := "TEXT", shortName := "text", tail := some ⟨"char", "bytes"⟩ }

/-- The protocol of both messages. -/
def protocol : Protocol :=
  ⟨List.zipWith TaggedMessage.mk (messages ++ [added]) [3, 4]⟩

theorem resolve_messages : resolve .unique (messages ++ [added]) = .ok protocol :=
  rfl

theorem generate_protocol :
    generate {} protocol "text.schema" = .ok (unitsOfProtocol {} protocol "text.schema") :=
  (generate_eq_ok ..).mpr ⟨nofun, by decide, rfl⟩

end Growth

/-- What a protocol `p` of the first `n` messages has in common with the protocol `q` of all. -/
structure Continues (n : Nat) (p q : Protocol) : Prop where
  messages : p.messages = q.messages.take n
  discriminants : p.discriminants = q.discriminants.take n
  compute : ∀ model order l, ProtocolLayout.compute q model order = .ok l →
    ProtocolLayout.compute p model order = .ok { l with records := l.records.take n }
  generate : ∀ s sourceName units, generate s q sourceName = .ok units → p.messages ≠ [] →
    units = unitsWith s sourceName q.messages (blocksOf s q) ∧
    generate s p sourceName =
      .ok (unitsWith s sourceName p.messages ((blocksOf s q).take n))

/-- What stays as it is for messages when one more follows them, and for the first `k` of them when
the next has another explicit discriminant. -/
structure KeepsBeginnings (policy : DiscriminantPolicy) (messages : List Message) : Prop where
  append : ∀ m q, resolve policy (messages ++ [m]) = .ok q →
    ∃ p, resolve policy messages = .ok p ∧ Continues messages.length p q
  assign : ∀ k value before after,
    Discriminant.assign (messages.map (·.explicitValue)) = .ok before →
    Discriminant.assign ((setExplicit messages k value).map (·.explicitValue)) = .ok after →
    after.take k = before.take k
  resolve : ∀ k value p q, resolve policy messages = .ok p →
    resolve policy (setExplicit messages k value) = .ok q →
    q.discriminants.take k = p.discriminants.take k

/-- A message disturbs nothing before it: neither by coming to the others nor by another explicit
discriminant. -/
theorem keepsBeginnings (policy : DiscriminantPolicy) (messages : List Message) :
    KeepsBeginnings policy messages where
  append m q hq := by
    have hp := resolve_take hq messages.length
    rw [List.take_left] at hp
    refine ⟨_, hp, messages_take q _, discriminants_take q _, fun model order l hl =>
      compute_take hl _, fun s sourceName units hunits hfirst => ⟨?_, ?_⟩⟩
    · rw [← unitsOfProtocol_eq]
      exact ((generate_eq_ok ..).mp hunits).2.2
    · rw [generate_take hunits hfirst, unitsOfProtocol_eq, blocksOf_take]
  assign k value before after hbefore hafter := by
    refine Discriminant.take_eq_of_numbers (Discriminant.assign_eq_ok.mp hbefore)
      (Discriminant.assign_eq_ok.mp hafter) ?_
    rw [← List.map_take, take_setExplicit, List.map_take]
  resolve k value p q hp hq := by
    refine Discriminant.take_eq_of_numbers (resolve_eq_ok.mp hp).2.2 (resolve_eq_ok.mp hq).2.2 ?_
    rw [← List.map_take, take_setExplicit, List.map_take]

theorem keepsBeginnings_open :
    resolve .unique (Growth.messages ++ [Growth.added]) = .ok Growth.protocol ∧
      ∃ p, resolve .unique Growth.messages = .ok p ∧ p.discriminants = [3] ∧
        generate {} p "text.schema" = .ok (unitsWith {} "text.schema" Growth.messages
          ((blocksOf {} Growth.protocol).take 1)) := by
  obtain ⟨p, hp, hcontinues⟩ :=
    (keepsBeginnings .unique Growth.messages).append Growth.added _ Growth.resolve_messages
  have hmessages : p.messages = Growth.messages := hcontinues.messages
  have hgenerate := hcontinues.generate _ _ _ Growth.generate_protocol (hmessages ▸ nofun)
  exact ⟨Growth.resolve_messages, p, hp, hcontinues.discriminants, hmessages ▸ hgenerate.2⟩

end Protocol

end MessageSchema
