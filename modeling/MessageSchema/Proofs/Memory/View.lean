import Mathlib.Data.List.Nodup
import MessageSchema.Memory.View
import MessageSchema.Proofs.Memory.Record

/-!
# Reading back what was built

`RoundTrip l r fields tail meaning env` says of the record `env` what can be read from it: its kind,
the value of every field by its name, the number of tail elements and their values, and the size.
Main statement: `roundTrip_create`, by which all of it is what the record was created from.

- **Values** (`ReadsAs`): a value is read as what its bits in the scalar stand for.
- **Reading** (`HoldsValue.read?`, `elements_of_holds`): what memory holds is what is read.
- **Built records** (`Built.roundTrip`): a record that was built reads back.
-/

namespace MessageSchema.Memory

/-! ## Reading what memory holds -/

/-- `w` is what becomes of `v` in a scalar. -/
def ReadsAs (s : Scalar) (v w : Value) : Prop :=
  ∃ bits, v.toBits? s = some bits ∧ w = .ofBits bits s

variable {m : DataModel}

theorem HoldsValue.exists_bits {order : ByteOrder} {memory : Bytes} {offset : Nat} {s : Scalar}
    {v : Value} (h : HoldsValue order memory offset s v) (hs : m.Has s) :
    ∃ bits, v.toBits? s = some bits ∧ order.decode (slice memory offset s.size) = bits := by
  obtain ⟨bits, hv, hslice⟩ := h
  exact ⟨bits, hv, by rw [hslice, order.decode_encode (Value.toBits?_lt hs hv)]⟩

namespace RecordView

variable {view : RecordView} {offset : Nat} {s : Scalar}

/-- A value that memory holds is read from it. -/
theorem read?_of_holdsValue {v : Value}
    (h : HoldsValue view.envelope.order view.envelope.bytes offset s v) (hs : m.Has s)
    (hinside : offset + s.size ≤ view.envelope.bytes.length) :
    ∃ w, view.read? offset s = some w ∧ ReadsAs s v w := by
  obtain ⟨bits, hv, hdecode⟩ := h.exists_bits hs
  refine ⟨.ofBits bits s, ?_, bits, hv, rfl⟩
  rw [read?, readNumber?, if_pos hinside, hdecode]
  rfl

/-- Elements that lie one after the other in memory are read one after the other. -/
theorem elements_of_holds {elements : List Value} (hs : m.Has s)
    (h : ∀ i v, elements[i]? = some v →
      HoldsValue view.envelope.order view.envelope.bytes (offset + i * s.size) s v)
    (hinside : offset + elements.length * s.size ≤ view.envelope.bytes.length) :
    List.Forall₂ (ReadsAs s) elements (view.elements s offset elements.length) := by
  induction elements generalizing offset with
  | nil => exact .nil
  | cons v rest ih =>
    rw [List.length_cons, Nat.add_mul, Nat.one_mul] at hinside
    have hfirst : HoldsValue view.envelope.order view.envelope.bytes offset s v := by
      simpa using h 0 v rfl
    obtain ⟨w, hread, hw⟩ := read?_of_holdsValue hfirst hs (by omega)
    have hrest : List.Forall₂ (ReadsAs s) rest (view.elements s (offset + s.size) rest.length) := by
      refine ih (fun i u hi => ?_) (by omega)
      have := h (i + 1) u hi
      rwa [Nat.add_mul, Nat.one_mul, Nat.add_comm (i * s.size), ← Nat.add_assoc] at this
    rw [List.length_cons, elements, hread]
    exact .cons hw hrest

end RecordView

theorem RecordLayout.field?_eq_some {r : RecordLayout} (hnodup : (r.fields.map (·.name)).Nodup)
    {f : MemberLayout} (hf : f ∈ r.fields) : r.field? f.name = some f := by
  rcases hfound : r.field? f.name with _ | g
  · have := List.find?_eq_none.mp hfound f hf
    simp at this
  · have hname : g.name = f.name := by simpa using List.find?_some hfound
    rw [List.inj_on_of_nodup_map hnodup (List.mem_of_find?_eq_some hfound) hf hname]

/-! ## A record that was built -/

/-- What can be read from a record that was created from values. -/
structure RoundTrip (l : ProtocolLayout) (r : RecordLayout) (fields tail : List Value)
    (meaning : SizeMeaning) (env : Envelope) : Prop where
  downcast : env.downcast? r = some ⟨env, r⟩
  fieldValues : List.Forall₂
    (fun f v => ∃ w, (RecordView.mk env r).field? f.name = some w ∧ ReadsAs f.scalar v w)
    r.fields fields
  tailCount : (RecordView.mk env r).tailCount meaning = tail.length
  tailValues : ∀ t ∈ r.tail,
    List.Forall₂ (ReadsAs t.scalar) tail ((RecordView.mk env r).tail meaning)
  noTail : r.tail = none → tail = [] ∧ (RecordView.mk env r).tail meaning = []
  sizeField : ∃ size, r.recordSize? tail.length = some size ∧
    env.sizeField =
      if meaning = .legacy ∧ r.tail.isSome then r.structuralSize + tail.length else size
  ofBytes : Envelope.ofBytes? l env.bytes = some env

namespace Built

variable {l : ProtocolLayout} {r : RecordLayout} {fields tail : List Value} {meaning : SizeMeaning}
  {size : Nat} {memory after : Bytes}

/-- The envelope of a built record has its discriminant. -/
theorem tag_eq (h : Built l r fields tail meaning size memory after)
    (hl : l.envelope = .ofModel m) :
    (Envelope.mk after l.envelope l.order).tag = r.discriminant := by
  have hs : m.Has l.envelope.tag := hl ▸ m.has_tag
  have hkind : l.envelope.tag.kind ≠ .float := by rw [hl]; exact nofun
  obtain ⟨v, hn, hv⟩ := h.tag
  obtain ⟨bits, hbits, hdecode⟩ := hv.exists_bits hs
  have hnumber : (Value.ofBits bits l.envelope.tag).signedNumber? = some r.discriminant.toInt := by
    rw [Value.signedNumber?_eq_some, Value.number?_ofBits hs hkind hbits, hn]
    exact ⟨rfl, r.discriminant.toInt_lt⟩
  rw [Envelope.tag, Envelope.numberAt, hdecode]
  dsimp only
  rw [hnumber, Option.getD_some, Int64.ofInt_toInt]

/-- And the size that was stored. -/
theorem sizeField_eq (h : Built l r fields tail meaning size memory after)
    (hl : l.envelope = .ofModel m) :
    (Envelope.mk after l.envelope l.order).sizeField = r.storedSize meaning size tail.length := by
  have hs : m.Has l.envelope.size := hl ▸ m.has_sizeType
  have hkind : l.envelope.size.kind = .unsigned := by rw [hl]; rfl
  obtain ⟨v, hn, hv⟩ := h.storedSize
  obtain ⟨bits, hbits, hdecode⟩ := hv.exists_bits hs
  obtain ⟨⟨n, hn', -, rfl⟩, -⟩ := (Value.toBits?_unsigned (.inl hkind)).mp hbits
  rw [hn] at hn'
  cases hn'
  rw [Envelope.sizeField, Envelope.numberAt, hdecode, Int.toNat_natCast]

/-- The number of tail elements is counted back from the size member. -/
theorem tailCount_eq (h : Built l r fields tail meaning size memory after)
    (hl : l.envelope = .ofModel m) (hs : r.Sound m) :
    (RecordView.mk ⟨after, l.envelope, l.order⟩ r).tailCount meaning = tail.length := by
  rcases ht : r.tail with _ | t
  · rw [RecordView.tailCount, ht, h.noTail ht]
    rfl
  · have hsize := ((RecordLayout.recordSize?_eq_some.mp h.recordSize).1 t ht).1
    have hpos := (hs.has (RecordLayout.mem_members_of_tail ht)).size_pos
    simp only [RecordView.tailCount, ht, h.sizeField_eq hl, RecordLayout.storedSize_eq]
    cases meaning with
    | bytes => simp [← hsize, hpos]
    | legacy => simp

/-- A built record can be seen as what it was built as. -/
theorem downcast?_eq (h : Built l r fields tail meaning size memory after)
    (hl : l.envelope = .ofModel m) :
    (Envelope.mk after l.envelope l.order).downcast? r =
      some ⟨⟨after, l.envelope, l.order⟩, r⟩ := by
  rw [Envelope.downcast?, if_pos (h.tag_eq hl)]

/-- The memory of a record is long enough for an envelope. -/
theorem ofBytes?_eq (h : Built l r fields tail meaning size memory after)
    (hl : l.envelope = .ofModel m) (hs : r.Sound m) :
    Envelope.ofBytes? l after = some ⟨after, l.envelope, l.order⟩ := by
  rw [Envelope.ofBytes?, if_pos]
  calc l.envelope.headerSize ≤ r.structuralSize := hl ▸ hs.headerSize_le
    _ ≤ size := RecordLayout.structuralSize_le h.recordSize
    _ ≤ after.length := h.length ▸ h.fits

/-- Everything that was written lies inside the memory. -/
theorem stop_le (h : Built l r fields tail meaning size memory after) {g : Region}
    (hg : g ∈ r.regions l.envelope tail.length) : g.stop ≤ after.length :=
  h.length ▸ Nat.le_trans (h.inside g hg) h.fits

/-- The elements of the tail of a built record are read back. -/
theorem tail_readsAs (h : Built l r fields tail meaning size memory after)
    (hl : l.envelope = .ofModel m) (hs : r.Sound m) {t : MemberLayout} (ht : t ∈ r.tail) :
    List.Forall₂ (ReadsAs t.scalar) tail
      ((RecordView.mk ⟨after, l.envelope, l.order⟩ r).tail meaning) := by
  rw [RecordView.tail, Option.mem_def.mp ht, h.tailCount_eq hl hs]
  exact RecordView.elements_of_holds (hs.has (RecordLayout.mem_members_of_tail ht))
    (h.tailValues t ht) (h.stop_le (RecordLayout.tail_mem_regions ht _ _))

/-- A record that was built shows all that it was built from. -/
theorem roundTrip (h : Built l r fields tail meaning size memory after)
    (hl : l.envelope = .ofModel m) (hs : r.Sound m) (hnodup : (r.fields.map (·.name)).Nodup) :
    RoundTrip l r fields tail meaning ⟨after, l.envelope, l.order⟩ := by
  let view : RecordView := ⟨⟨after, l.envelope, l.order⟩, r⟩
  refine ⟨h.downcast?_eq hl, ?_, h.tailCount_eq hl hs, fun t ht => h.tail_readsAs hl hs ht,
    fun ht => ⟨h.noTail ht, by rw [RecordView.tail, ht]⟩, ⟨size, h.recordSize, ?_⟩,
    h.ofBytes?_eq hl hs⟩
  · refine List.forall₂_iff_get.mpr ⟨h.fieldValues.length_eq, fun i hi hi' => ?_⟩
    have hf := List.get_mem r.fields ⟨i, hi⟩
    have hholds : HoldsValue view.envelope.order view.envelope.bytes _ _ _ :=
      h.fieldValues.get hi hi'
    obtain ⟨w, hread, hw⟩ := RecordView.read?_of_holdsValue hholds
      (hs.has (RecordLayout.mem_members_of_fields hf))
      (h.stop_le (RecordLayout.field_mem_regions hf _ _))
    refine ⟨w, ?_, hw⟩
    rw [RecordView.field?, RecordLayout.field?_eq_some hnodup hf]
    exact hread
  · rw [h.sizeField_eq hl, RecordLayout.storedSize_eq]

end Built

/-- In memory that is as large as asked for, a record is created if its size fits the envelope. -/
theorem ProtocolLayout.exists_create {l : ProtocolLayout} {r : RecordLayout}
    {fields tail : List Value} {size : Nat} (hl : l.envelope = .ofModel m) (hs : r.Sound m)
    (hd : Protocol.fitsInt r.discriminant = true) (haccepts : r.Accepts fields tail)
    (hsize : r.recordSize? tail.length = some size)
    (hfits : size < twoPow (8 * l.envelope.size.size)) (meaning : SizeMeaning) :
    ∃ env, l.create zeroAllocator r fields tail meaning = .ok env := by
  obtain ⟨fieldBits, tailBits, hencode⟩ := haccepts.exists_encode meaning hsize
  obtain ⟨tagBits, hbits⟩ := envelopeBits_eq hl hd (r.storedSize meaning size tail.length)
  rw [if_pos (Nat.lt_of_le_of_lt (hs.storedSize_le hsize) hfits)] at hbits
  have hroom : size ≤ (List.replicate size (0 : UInt8)).length :=
    Nat.le_of_eq List.length_replicate.symm
  have hbuilt := outcome_constructInPlace_eq_ok.mpr
    ⟨_, hencode, outcome_writeRecord_eq_ok.mpr ⟨hroom, tagBits, _, hbits, rfl⟩⟩
  exact ⟨_, create_eq_ok.mpr ⟨size, _, _, hsize, rfl, hbuilt, rfl⟩⟩

/-- A record that is created reads back, and values that fit make a record if its size fits the size
member. -/
theorem roundTrip_create {policy : DiscriminantPolicy} {messages : List Message} {p : Protocol}
    {m : DataModel} {order : ByteOrder} {l : ProtocolLayout} {r : RecordLayout}
    (hp : Protocol.resolve policy messages = .ok p) (h : ProtocolLayout.compute p m order = .ok l)
    (hr : r ∈ l.records) (fields tail : List Value) (meaning : SizeMeaning) :
    (∀ allocator env, l.create allocator r fields tail meaning = .ok env →
        RoundTrip l r fields tail meaning env) ∧
      (r.Accepts fields tail →
        (∃ size, r.recordSize? tail.length = some size ∧
          size < twoPow (8 * l.envelope.size.size)) →
        ∃ env, l.create zeroAllocator r fields tail meaning = .ok env) := by
  have hl := ProtocolLayout.envelope_of_compute h
  have hs := ProtocolLayout.sound_of_compute h hr
  constructor
  · intro allocator env hcreate
    obtain ⟨_, memory, after, -, -, hafter, rfl⟩ := ProtocolLayout.create_eq_ok.mp hcreate
    obtain ⟨size, hbuilt⟩ := ProtocolLayout.built_of_constructInPlace hl hs hafter
    exact hbuilt.roundTrip hl hs (ProtocolLayout.nodup_fieldNames hp h hr)
  · rintro haccepts ⟨size, hsize, hfits⟩
    exact ProtocolLayout.exists_create hl hs (ProtocolLayout.fitsInt_discriminant hp h hr) haccepts
      hsize hfits meaning

theorem roundTrip_sample :
    Protocol.resolve .unique [Sample.message] = .ok Sample.protocol ∧
      ProtocolLayout.compute Sample.protocol .ilp32 .big = .ok Sample.layout ∧
      Sample.record ∈ Sample.layout.records ∧ Sample.record.Accepts Sample.fields Sample.tail ∧
      ∃ env,
        Sample.layout.create zeroAllocator Sample.record Sample.fields Sample.tail .legacy =
          .ok env ∧
        RoundTrip Sample.layout Sample.record Sample.fields Sample.tail .legacy env := by
  have hresolve : Protocol.resolve .unique [Sample.message] = .ok Sample.protocol := rfl
  have haccepts : Sample.record.Accepts Sample.fields Sample.tail :=
    ⟨rfl, by decide, by decide, nofun⟩
  obtain ⟨hback, hcreate⟩ := roundTrip_create hresolve Sample.compute_protocol Sample.record_mem
    Sample.fields Sample.tail .legacy
  obtain ⟨env, henv⟩ := hcreate haccepts ⟨24, rfl, by decide⟩
  exact ⟨hresolve, Sample.compute_protocol, Sample.record_mem, haccepts, env, henv,
    hback _ env henv⟩

end MessageSchema.Memory
