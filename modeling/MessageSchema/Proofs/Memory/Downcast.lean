import MessageSchema.Proofs.Memory.Access
import MessageSchema.Proofs.Protocol.Lookup

/-!
# Telling records apart by their discriminants

An envelope can be seen as a record of each kind whose discriminant is the C `int` that the
envelope holds, read from its four bytes with their sign (`intOfBytes`). Main statement:
`downcastsByTag_of_compute`, by which the search for a discriminant gives the first of these kinds,
and by which discriminants that differ leave one kind at most: for a record that was built, its own.

- **The discriminant** (`toInt_tag`): what is decoded from an envelope is that `int`.
- **Kinds** (`Envelope.kinds`): which records an envelope can be seen as, in the order of the
  messages.
- **Built records** (`kinds_eq_singleton`).
-/

namespace MessageSchema.Memory

/-! ## The discriminant of an envelope -/

/-- The C `int` of four bytes, the lowest first; the sign is in the last one. -/
def intOfBytes : Bytes → Int
  | [a, b, c, d] =>
    (a.toNat : Int) + 256 * b.toNat + 65536 * c.toNat +
      16777216 * (if d.toNat < 128 then (d.toNat : Int) else d.toNat - 256)
  | _ => 0

/-- The C `int` in the first four bytes of memory from an offset on. -/
def intAt (order : ByteOrder) (memory : Bytes) (offset : Nat) : Int :=
  match order with
  | .little => intOfBytes (slice memory offset 4)
  | .big => intOfBytes (slice memory offset 4).reverse

/-- The C `int` that an envelope holds as its discriminant. -/
def Envelope.storedTag (e : Envelope) : Int :=
  intAt e.order e.bytes e.layout.tagOffset

/-- The number of four bytes, as a C `int`. -/
theorem wrap_numberOfLowBytes {bytes : Bytes} (h : bytes.length = 4) :
    IntegerType.wrap ⟨true, .w32⟩ (numberOfLowBytes bytes) = intOfBytes bytes := by
  match bytes, h with
  | [a, b, c, d], _ =>
    have ha := a.toNat_lt
    have hb := b.toNat_lt
    have hc := c.toNat_lt
    have hd := d.toNat_lt
    have hwidth : twoPow Width.w32.bits = 4294967296 := rfl
    simp only [IntegerType.wrap, if_true, hwidth, numberOfLowBytes, intOfBytes, Int.bmod]
    split <;> split <;> omega

theorem wrap_decode (order : ByteOrder) {memory : Bytes} {offset : Nat}
    (h : offset + 4 ≤ memory.length) :
    IntegerType.wrap ⟨true, .w32⟩ (order.decode (slice memory offset 4)) =
      intAt order memory offset := by
  have hlength := length_slice h
  cases order with
  | little => exact wrap_numberOfLowBytes hlength
  | big => exact wrap_numberOfLowBytes (by rwa [List.length_reverse])

variable {m : DataModel} {l : ProtocolLayout} {e : Envelope} {r : RecordLayout}

/-- The discriminant that is read is the `int` in the memory. -/
theorem toInt_tag (he : e.layout = .ofModel m) (hheader : e.layout.headerSize ≤ e.bytes.length) :
    e.tag.toInt = e.storedTag := by
  have htag : e.layout.tag = ⟨.signed, 4, 4⟩ := by rw [he]; rfl
  have hinside : e.layout.tagOffset + 4 ≤ e.bytes.length := by
    have hstop := (EnvelopeLayout.stop_le_headerSize m).1
    rw [← he, htag] at hstop
    exact Nat.le_trans hstop hheader
  have hwrap : IntegerType.wrap ⟨true, .w32⟩ (e.numberAt e.layout.tagOffset 4) = e.storedTag :=
    wrap_decode e.order hinside
  obtain ⟨hlow, hhigh⟩ := IntegerType.holds_wrap ⟨true, .w32⟩ (e.numberAt e.layout.tagOffset 4)
  have hleast : IntegerType.least ⟨true, .w32⟩ = -2147483648 := rfl
  have hgreatest : IntegerType.greatest ⟨true, .w32⟩ = 2147483647 := rfl
  rw [hwrap] at hlow hhigh
  -- within the range of an `int` the number is a signed one
  have hnumber : (Value.ofBits (e.numberAt e.layout.tagOffset 4) ⟨.signed, 4, 4⟩).signedNumber? =
      some e.storedTag :=
    Value.signedNumber?_eq_some.mpr ⟨congrArg some hwrap, Int.lt_of_le_of_lt hhigh (by decide)⟩
  rw [Envelope.tag, htag]
  dsimp only
  rw [hnumber, Option.getD_some]
  exact Int64.toInt_ofInt_of_le (by omega) (by omega)

/-- The records that an envelope can be seen as, in the order of the messages. -/
def Envelope.kinds (e : Envelope) (l : ProtocolLayout) : List RecordLayout :=
  l.records.filter fun r => (e.downcast? r).isSome

/-- An envelope can be seen as the records of the discriminant that it holds, and the search for the
discriminant finds the first of them. -/
structure DowncastsByTag (l : ProtocolLayout) (e : Envelope) : Prop where
  tag : e.tag.toInt = e.storedTag
  downcast : ∀ r, e.downcast? r =
    if r.discriminant.toInt = e.storedTag then some ⟨e, r⟩ else none
  byTag : l.byTag? e.tag = (e.kinds l).head?

/-- An envelope can be seen as the records with its discriminant. -/
theorem isSome_downcast? : (e.downcast? r).isSome ↔ e.tag = r.discriminant := by
  unfold Envelope.downcast?
  split <;> simp_all

/-- Any memory with room for the header is downcast by the discriminant in it. -/
theorem downcastsByTag_of_layout (he : e.layout = .ofModel m)
    (hheader : e.layout.headerSize ≤ e.bytes.length) : DowncastsByTag l e where
  tag := toInt_tag he hheader
  downcast r := by
    rw [← toInt_tag he hheader]
    exact if_congr (eq_comm.trans Int64.toInt_inj.symm) rfl rfl
  byTag := by
    rw [Envelope.kinds, List.head?_filter, ProtocolLayout.byTag?]
    congr 1
    funext r
    rw [Bool.eq_iff_iff, isSome_downcast?, beq_iff_eq, eq_comm]

/-! ## Envelopes of a protocol -/

/-- The envelopes that a layout gives: memory of any content, and records that were built. -/
inductive OverLayout (l : ProtocolLayout) (e : Envelope) : Prop
  | wrapped (bytes : Bytes) : Envelope.ofBytes? l bytes = some e → OverLayout l e
  | built (allocator : Allocator) (r : RecordLayout) (fields tail : List Value)
      (meaning : SizeMeaning) :
    r ∈ l.records → l.create allocator r fields tail meaning = .ok e → OverLayout l e

section Protocol

variable {policy : DiscriminantPolicy} {messages : List Message} {p : Protocol} {order : ByteOrder}
  {allocator : Allocator} {fields tail : List Value} {meaning : SizeMeaning}

/-- An envelope that wraps bytes has the layout of the protocol, and room for its header. -/
theorem layout_of_ofBytes? {bytes : Bytes} (h : Envelope.ofBytes? l bytes = some e) :
    e.layout = l.envelope ∧ e.layout.headerSize ≤ e.bytes.length := by
  unfold Envelope.ofBytes? at h
  split at h
  · cases h
    exact ⟨rfl, by assumption⟩
  · cases h

theorem roundTrip_of_create (hp : Protocol.resolve policy messages = .ok p)
    (h : ProtocolLayout.compute p m order = .ok l) (hr : r ∈ l.records)
    (hcreate : l.create allocator r fields tail meaning = .ok e) :
    RoundTrip l r fields tail meaning e := by
  have hl := ProtocolLayout.envelope_of_compute h
  have hs := ProtocolLayout.sound_of_compute h hr
  obtain ⟨_, memory, after, -, -, hafter, rfl⟩ := ProtocolLayout.create_eq_ok.mp hcreate
  obtain ⟨size, hbuilt⟩ := ProtocolLayout.built_of_constructInPlace hl hs hafter
  exact hbuilt.roundTrip hl hs (ProtocolLayout.nodup_fieldNames hp h hr)

theorem OverLayout.downcastsByTag (hp : Protocol.resolve policy messages = .ok p)
    (h : ProtocolLayout.compute p m order = .ok l) (he : OverLayout l e) : DowncastsByTag l e := by
  have hl := ProtocolLayout.envelope_of_compute h
  obtain ⟨hlayout, hheader⟩ : e.layout = l.envelope ∧ e.layout.headerSize ≤ e.bytes.length := by
    cases he with
    | wrapped bytes hbytes => exact layout_of_ofBytes? hbytes
    | built allocator r fields tail meaning hr hcreate =>
      exact layout_of_ofBytes? (roundTrip_of_create hp h hr hcreate).ofBytes
  exact downcastsByTag_of_layout (hlayout.trans hl) hheader

/-- Records of a protocol without shared discriminants have different ones. -/
theorem nodup_discriminants (hp : Protocol.resolve .unique messages = .ok p)
    (h : ProtocolLayout.compute p m order = .ok l) : (l.records.map (·.discriminant)).Nodup := by
  obtain ⟨hvalid, -, hnumbers⟩ := Protocol.resolve_eq_ok.mp hp
  rw [Protocol.discriminants_records h, ← Protocol.nodup_map_toInt, hnumbers]
  exact hvalid.distinct rfl

/-- Of records with different discriminants an envelope is one at most. -/
theorem length_kinds_le_one (h : (l.records.map (·.discriminant)).Nodup) :
    (e.kinds l).length ≤ 1 := by
  have hsame : (e.kinds l).map (·.discriminant) = List.replicate (e.kinds l).length e.tag := by
    refine List.eq_replicate_iff.mpr ⟨List.length_map .., fun d hd => ?_⟩
    obtain ⟨r, hr, rfl⟩ := List.mem_map.mp hd
    exact (isSome_downcast?.mp (List.mem_filter.mp hr).2).symm
  have hsub : (e.kinds l).Sublist l.records := List.filter_sublist
  have hnodup := (hsub.map RecordLayout.discriminant).nodup h
  rw [hsame] at hnodup
  exact List.nodup_replicate.mp hnodup

/-- Then an envelope that can be seen as a record is of this kind only. -/
theorem kinds_eq_singleton (h : (l.records.map (·.discriminant)).Nodup) (hr : r ∈ l.records)
    (hdowncast : (e.downcast? r).isSome) : e.kinds l = [r] := by
  have hmem : r ∈ e.kinds l := List.mem_filter.mpr ⟨hr, hdowncast⟩
  have hlength := length_kinds_le_one (e := e) h
  match hkinds : e.kinds l with
  | [] => rw [hkinds] at hmem; cases hmem
  | [_] => rw [hkinds] at hmem; rw [List.mem_singleton.mp hmem]
  | _ :: _ :: _ => simp [hkinds] at hlength

end Protocol

namespace Sample

/-- The record of the least discriminant. -/
def low : RecordLayout where
  name := "LOW"
  shortName := "low"
  discriminant := -2147483648
  fields := [⟨"_x", "int", ⟨.signed, 4, 4⟩, 16⟩]
  tail := some ⟨"data", "char", ⟨.signed, 1, 1⟩, 20⟩
  structuralSize := 24
  align := 8

/-- The record of the discriminant after it. -/
def next : RecordLayout :=
  ⟨"NEXT", "next", -2147483647, [], none, 16, 8⟩

/-- The layout of a protocol with these and with the greatest discriminant. -/
def extremes : ProtocolLayout :=
  ⟨.lp64, .big, .ofModel .lp64, [low, next, ⟨"HIGH", "high", 2147483647, [], none, 16, 8⟩]⟩

/-- An envelope with the discriminant -2147483647. -/
def negative : Bytes :=
  [0x80, 0, 0, 1, 0, 0, 0, 0, 0, 0, 0, 0, 0, 0, 0, 16]

theorem compute_extremes :
    ProtocolLayout.compute Protocol.Sample.protocol .lp64 .big = .ok extremes :=
  rfl

end Sample

/-- An envelope can be seen as the records with the discriminant that it holds, which stand in the
order of the messages. If discriminants differ that is one record at most, and for an envelope that
was built the one of which it was built. -/
theorem downcastsByTag_of_compute {policy : DiscriminantPolicy} {messages : List Message}
    {p : Protocol} {m : DataModel} {order : ByteOrder} {l : ProtocolLayout}
    (hp : Protocol.resolve policy messages = .ok p) (h : ProtocolLayout.compute p m order = .ok l) :
    l.records.map (·.name) = messages.map (·.name) ∧
    (∀ e, OverLayout l e →
      DowncastsByTag l e ∧ (policy = .unique → (e.kinds l).length ≤ 1)) ∧
    ∀ r ∈ l.records, ∀ allocator fields tail meaning e,
      l.create allocator r fields tail meaning = .ok e →
      e.downcast? r = some ⟨e, r⟩ ∧
        (policy = .unique → e.kinds l = [r] ∧ l.byTag? e.tag = some r) := by
  refine ⟨?_, ?_, ?_⟩
  · rw [Protocol.names_records h, (Protocol.resolve_eq_ok.mp hp).2.1]
  · intro e he
    refine ⟨he.downcastsByTag hp h, ?_⟩
    rintro rfl
    exact length_kinds_le_one (nodup_discriminants hp h)
  · intro r hr allocator fields tail meaning e hcreate
    have hdowncast := (roundTrip_of_create hp h hr hcreate).downcast
    refine ⟨hdowncast, ?_⟩
    rintro rfl
    have hkinds := kinds_eq_singleton (nodup_discriminants hp h) hr (by rw [hdowncast]; rfl)
    have hover : OverLayout l e := .built allocator r fields tail meaning hr hcreate
    rw [(hover.downcastsByTag hp h).byTag, hkinds]
    exact ⟨rfl, rfl⟩

theorem downcastsByTag_sample :
    Protocol.resolve .unique Protocol.Sample.messages = .ok Protocol.Sample.protocol ∧
      ProtocolLayout.compute Protocol.Sample.protocol .lp64 .big = .ok Sample.extremes ∧
      (∃ e, Envelope.ofBytes? Sample.extremes Sample.negative = some e ∧
        e.storedTag = -2147483647 ∧ DowncastsByTag Sample.extremes e ∧
        e.kinds Sample.extremes = [Sample.next]) ∧
      ∃ e, Sample.extremes.create zeroAllocator Sample.low
          [.integer ⟨true, .w64⟩ (-1) (by decide)] [] .bytes = .ok e ∧
        e.kinds Sample.extremes = [Sample.low] ∧
        Sample.extremes.byTag? e.tag = some Sample.low := by
  obtain ⟨-, hany, hbuilt⟩ :=
    downcastsByTag_of_compute Protocol.Sample.resolve_messages Sample.compute_extremes
  have hlow : Sample.low ∈ Sample.extremes.records := List.mem_cons_self
  have haccepts : Sample.low.Accepts [.integer ⟨true, .w64⟩ (-1) (by decide)] [] :=
    ⟨rfl, by decide, by decide, nofun⟩
  obtain ⟨e, he⟩ := ProtocolLayout.exists_create (l := Sample.extremes) rfl
    (ProtocolLayout.sound_of_compute Sample.compute_extremes hlow) rfl haccepts rfl (by decide)
    .bytes
  exact ⟨Protocol.Sample.resolve_messages, Sample.compute_extremes,
    ⟨_, rfl, rfl, (hany _ (.wrapped Sample.negative rfl)).1, rfl⟩,
    e, he, (hbuilt _ hlow _ _ _ _ e he).2 rfl⟩

end MessageSchema.Memory
