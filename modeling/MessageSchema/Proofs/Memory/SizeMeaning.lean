import MessageSchema.Proofs.Memory.View

/-!
# The two meanings of the size member

A record can be built with its number of bytes in the size member, or with the number of its tail
elements above the fixed part. Main statement: `differsInSize_of_constructInPlace`, by which the
two records differ in that member only, and there just if there are elements of more than one byte;
each read in its own meaning shows the same tail.

- **Values** (`Encodes.eq_of_meaning`): the meaning decides nothing but what is stored as the size.
- **Writes** (`agreeOutside_pieces`): so one of the writes is another, of the same region.
- **Reading** (`Built.tail_eq`): both tails are what becomes of the same values.
-/

namespace MessageSchema.Memory

namespace RecordLayout

variable {r : RecordLayout} {fields tail : List Value} {first second : SizeMeaning}
  {e k : EncodedRecord}

/-- In either meaning the values have the same bits. -/
theorem Encodes.eq_of_meaning (he : r.Encodes fields tail first e)
    (hk : r.Encodes fields tail second k) : e.fields = k.fields ∧ e.tail = k.tail := by
  constructor
  · refine Relator.RightUnique.forall₂ (fun x b c hb hc => ?_) he.fieldBits hk.fieldBits
    exact Option.some.inj (hb.symm.trans hc)
  · rcases ht : r.tail with _ | t
    · rw [(he.noTail ht).2, (hk.noTail ht).2]
    · refine Relator.RightUnique.forall₂ (fun v b c hb hc => ?_) (he.tailBits t ht)
        (hk.tailBits t ht)
      exact Option.some.inj (hb.symm.trans hc)

/-- The stored sizes are the same just if there are no elements or they are single bytes. -/
theorem storedSize_eq_iff {count size : Nat} (h : r.recordSize? count = some size) :
    r.storedSize .bytes size count = r.storedSize .legacy size count ↔
      r.tail = none ∨ count = 0 ∨ ∀ t ∈ r.tail, t.scalar.size = 1 := by
  rw [storedSize_eq, storedSize_eq]
  rcases ht : r.tail with _ | t
  · simp
  · have hsize := ((recordSize?_eq_some.mp h).1 t ht).1
    have hcount : count * t.scalar.size = count ↔ count = 0 ∨ t.scalar.size = 1 := by
      rcases Nat.eq_zero_or_pos count with rfl | hpos
      · simp
      · rw [Nat.mul_eq_left (by omega)]
        omega
    simp [← hcount]
    omega

end RecordLayout

namespace ProtocolLayout

variable {m : DataModel} {l : ProtocolLayout} {r : RecordLayout} {fields tail : List Value}
  {first second : SizeMeaning} {e k : EncodedRecord} {memory : Bytes}
  {tagBits sizeBits otherBits : Nat}

/-- Records of the same values are written the same way, up to the size. -/
theorem agreeOutside_pieces (hl : l.envelope = .ofModel m) (hs : r.Sound m)
    (he : r.Encodes fields tail first e) (hk : r.Encodes fields tail second k)
    (hfits : e.size ≤ memory.length) :
    AgreeOutside l.envelope.sizeRegion
      (overwriteAll memory (l.pieces r e tagBits sizeBits))
      (overwriteAll memory (l.pieces r k tagBits otherBits)) := by
  obtain ⟨hfields, htail⟩ := he.eq_of_meaning hk
  have hinside : ∀ p ∈ l.pieces r e tagBits sizeBits, p.region.stop ≤ memory.length :=
    fun p hp => Nat.le_trans (pieces_inside hl hs he hp) hfits
  unfold pieces fixedPieces at hinside ⊢
  rw [← hfields, ← htail]
  -- First the discriminant, then the size, which is the other write, then all the rest.
  obtain ⟨htag, hinside⟩ := List.forall_mem_cons.mp hinside
  obtain ⟨hsize, hrest⟩ := List.forall_mem_cons.mp hinside
  have hlength := length_overwrite htag
  have hsame : (l.order.encode l.envelope.size.size sizeBits).length =
      (l.order.encode l.envelope.size.size otherBits).length := by simp
  have hsizes := agreeOutside_of_overwrite (hlength ▸ hsize) hsame
  rw [ByteOrder.length_encode] at hsizes
  exact hsizes.writeAll fun p hp => by
    rw [length_overwrite (hlength ▸ hsize), hlength]
    exact hrest p hp

/-- Records that are built in the same memory from the same values. -/
theorem agreeOutside_of_constructInPlace (hl : l.envelope = .ofModel m) (hs : r.Sound m)
    {after other : Bytes}
    (hfirst : (l.constructInPlace r fields tail first).outcome memory = (.ok (), after))
    (hsecond : (l.constructInPlace r fields tail second).outcome memory = (.ok (), other)) :
    AgreeOutside l.envelope.sizeRegion after other := by
  obtain ⟨e, he, hwrite⟩ := outcome_constructInPlace_eq_ok.mp hfirst
  obtain ⟨k, hk, hwrite'⟩ := outcome_constructInPlace_eq_ok.mp hsecond
  obtain ⟨hfits, tagBits, sizeBits, hbits, rfl⟩ := outcome_writeRecord_eq_ok.mp hwrite
  obtain ⟨-, tagBits', otherBits, hbits', rfl⟩ := outcome_writeRecord_eq_ok.mp hwrite'
  have htag := (envelopeBits_eq_ok.mp hbits).1
  rw [(envelopeBits_eq_ok.mp hbits').1] at htag
  cases htag
  exact agreeOutside_pieces hl hs (RecordLayout.encode_eq_ok.mp he)
    (RecordLayout.encode_eq_ok.mp hk) hfits

end ProtocolLayout

/-! ## Reading in the two meanings -/

/-- What bytes are as a record of one kind. -/
def ProtocolLayout.viewOf (l : ProtocolLayout) (r : RecordLayout) (memory : Bytes) : RecordView :=
  ⟨⟨memory, l.envelope, l.order⟩, r⟩

namespace Built

variable {m : DataModel} {l : ProtocolLayout} {r : RecordLayout} {fields tail : List Value}
  {first second : SizeMeaning} {size count : Nat} {memory after other : Bytes}

/-- A record that was built is received as one of its kind. -/
theorem received (h : Built l r fields tail first size memory after)
    (hl : l.envelope = .ofModel m) (hs : r.Sound m) :
    (Envelope.ofBytes? l after).bind (·.downcast? r) = some (l.viewOf r after) := by
  rw [h.ofBytes?_eq hl hs, Option.bind_some, h.downcast?_eq hl, ProtocolLayout.viewOf]

/-- The two size members agree just for records without a tail, with an empty one, or with one of
single bytes. -/
theorem sizeField_eq_iff (h : Built l r fields tail .bytes size memory after)
    (h' : Built l r fields tail .legacy count memory other) (hl : l.envelope = .ofModel m) :
    (l.viewOf r after).envelope.sizeField = (l.viewOf r other).envelope.sizeField ↔
      r.tail = none ∨ tail = [] ∨ ∀ t ∈ r.tail, t.scalar.size = 1 := by
  have hsize := h.recordSize
  rw [h'.recordSize] at hsize
  cases hsize
  unfold ProtocolLayout.viewOf
  rw [h.sizeField_eq hl, h'.sizeField_eq hl, RecordLayout.storedSize_eq_iff h.recordSize,
    List.length_eq_zero_iff]

/-- The tail that is read depends on the values only. -/
theorem tail_eq (h : Built l r fields tail first size memory after)
    (h' : Built l r fields tail second count memory other) (hl : l.envelope = .ofModel m)
    (hs : r.Sound m) : (l.viewOf r after).tail first = (l.viewOf r other).tail second := by
  rcases ht : r.tail with _ | t
  · simp [RecordView.tail, ProtocolLayout.viewOf, ht]
  · refine Relator.RightUnique.forall₂ ?_ (h.tail_readsAs hl hs ht) (h'.tail_readsAs hl hs ht)
    rintro v _ _ ⟨bits, hbits, rfl⟩ ⟨bits', hbits', rfl⟩
    rw [hbits] at hbits'
    cases hbits'
    rfl

end Built

/-- One record with its number of bytes in the size member, and one with the number of its elements
above the fixed part: only that member may differ, and each shows as many elements as there are, the
same ones in both. -/
structure DiffersInSize (l : ProtocolLayout) (r : RecordLayout) (tail : List Value)
    (byBytes byCount : Bytes) : Prop where
  agree : AgreeOutside l.envelope.sizeRegion byBytes byCount
  sizeField_eq_iff :
    (l.viewOf r byBytes).envelope.sizeField = (l.viewOf r byCount).envelope.sizeField ↔
      r.tail = none ∨ tail = [] ∨ ∀ t ∈ r.tail, t.scalar.size = 1
  received :
    (Envelope.ofBytes? l byBytes).bind (·.downcast? r) = some (l.viewOf r byBytes) ∧
      (Envelope.ofBytes? l byCount).bind (·.downcast? r) = some (l.viewOf r byCount)
  tailCount : (l.viewOf r byBytes).tailCount .bytes = tail.length ∧
    (l.viewOf r byCount).tailCount .legacy = tail.length
  tail : (l.viewOf r byBytes).tail .bytes = (l.viewOf r byCount).tail .legacy

/-- A record that is built in either meaning differs in the size member only. -/
theorem differsInSize_of_constructInPlace {p : Protocol} {m : DataModel} {order : ByteOrder}
    {l : ProtocolLayout} {r : RecordLayout} {fields tail : List Value}
    {memory byBytes byCount : Bytes}
    (h : ProtocolLayout.compute p m order = .ok l) (hr : r ∈ l.records)
    (hbytes : (l.constructInPlace r fields tail .bytes).outcome memory = (.ok (), byBytes))
    (hcount : (l.constructInPlace r fields tail .legacy).outcome memory = (.ok (), byCount)) :
    DiffersInSize l r tail byBytes byCount := by
  have hl := ProtocolLayout.envelope_of_compute h
  have hs := ProtocolLayout.sound_of_compute h hr
  obtain ⟨size, hbuilt⟩ := ProtocolLayout.built_of_constructInPlace hl hs hbytes
  obtain ⟨count, hbuilt'⟩ := ProtocolLayout.built_of_constructInPlace hl hs hcount
  exact {
    agree := ProtocolLayout.agreeOutside_of_constructInPlace hl hs hbytes hcount
    sizeField_eq_iff := hbuilt.sizeField_eq_iff hbuilt' hl
    received := ⟨hbuilt.received hl hs, hbuilt'.received hl hs⟩
    tailCount := ⟨hbuilt.tailCount_eq hl hs, hbuilt'.tailCount_eq hl hs⟩
    tail := hbuilt.tail_eq hbuilt' hl hs }

namespace Sample

/-- The example with the number of its elements, one, above the 16 bytes that are fixed. -/
def builtByCount : Bytes :=
  [0, 0, 0, 3, 0, 0, 0, 17, 0xFF, 0xAA, 1, 0x2C, 7, 0xAA, 0xAA, 0xAA, 0, 0, 0, 0, 0, 0, 0, 5,
    0xAA, 0xAA]

end Sample

theorem differsInSize_sample :
    ProtocolLayout.compute Sample.protocol .ilp32 .big = .ok Sample.layout ∧
      Sample.record ∈ Sample.layout.records ∧
      (Sample.layout.constructInPlace Sample.record Sample.fields Sample.tail .bytes).outcome
        (List.replicate 26 0xAA) = (.ok (), Sample.built) ∧
      (Sample.layout.constructInPlace Sample.record Sample.fields Sample.tail .legacy).outcome
        (List.replicate 26 0xAA) = (.ok (), Sample.builtByCount) ∧
      DiffersInSize Sample.layout Sample.record Sample.tail Sample.built Sample.builtByCount :=
  ⟨Sample.compute_protocol, Sample.record_mem, Sample.outcome_constructInPlace, rfl,
    differsInSize_of_constructInPlace Sample.compute_protocol Sample.record_mem
      Sample.outcome_constructInPlace rfl⟩

end MessageSchema.Memory
