import MessageSchema.Proofs.Memory.Record

/-!
# Requests for memory

`createAsking` creates a record and keeps the sizes that the allocator was asked for. At most one
request is made, for the bytes of the record, once its values are encoded
(`createAsking_of_encode_ok`).

`AsksOnlyIfBuildable l r fields tail meaning` says that the request is never in vain: after it only
the answer can be the cause of an error, and a record with more bytes than its size member can count
is refused without it. Whether the size has bits in the envelope is found out only when the record
is written, after the request. So this holds just when the size of the record, if it has one, fits
its size member: `asksOnlyIfBuildable_iff`.
-/

namespace MessageSchema.Memory

/-! ## An allocator that is watched -/

/-- An allocator that keeps the sizes it is asked for. -/
def watched (allocator : Allocator) (size : Nat) : StateM (List Nat) AllocationAnswer :=
  modifyGet fun sizes => (allocator size, sizes ++ [size])

/-- An error whose cause is the answer to a request for `size` bytes. -/
inductive CausedBy (size : Nat) : AllocationAnswer → RecordError → Prop
  | failure (f : AllocationFailure) : CausedBy size (.error f) (.allocation f)
  | noMemory : CausedBy size (.ok none) .noMemory
  | tooSmall (memory : Bytes) (h : memory.length < size) :
    CausedBy size (.ok (some memory)) (.bufferTooSmall size memory.length)

namespace ProtocolLayout

/-- The result of creating a record, and the sizes that the allocator was asked for. -/
def createAsking (l : ProtocolLayout) (allocator : Allocator) (r : RecordLayout)
    (fields tail : List Value) (meaning : SizeMeaning) : Except RecordError Envelope × List Nat :=
  (l.createWith (watched allocator) r fields tail meaning).run.run []

variable {l : ProtocolLayout} {r : RecordLayout} {fields tail : List Value} {meaning : SizeMeaning}

/-- No memory is asked for when the values are not encoded. -/
theorem createAsking_of_encode_error {error : RecordError}
    (h : r.encode fields tail meaning = .error error) (allocator : Allocator) :
    l.createAsking allocator r fields tail meaning = (.error error, []) := by
  rw [createAsking, run_createWith, h]
  rfl

/-- When they are, memory is asked for once. -/
theorem createAsking_of_encode_ok {e : EncodedRecord} (h : r.encode fields tail meaning = .ok e)
    (allocator : Allocator) :
    l.createAsking allocator r fields tail meaning =
      (l.finish r e (allocator e.size), [e.size]) := by
  rw [createAsking, run_createWith, h]
  rfl

/-- To watch the allocator changes nothing about the record. -/
theorem fst_createAsking (l : ProtocolLayout) (allocator : Allocator) (r : RecordLayout)
    (fields tail : List Value) (meaning : SizeMeaning) :
    (l.createAsking allocator r fields tail meaning).1 =
      l.create allocator r fields tail meaning := by
  rw [create_eq]
  rcases h : r.encode fields tail meaning with error | e
  · rw [createAsking_of_encode_error h]
    rfl
  · rw [createAsking_of_encode_ok h]
    rfl

end ProtocolLayout

/-- The bytes of a record with `count` tail elements. -/
def RecordLayout.byteCount (r : RecordLayout) (count : Nat) : Nat :=
  (r.tail.map (count * ·.scalar.size)).getD 0 + r.structuralSize

/-- Memory is asked for only if nothing but the answer can keep the record from being created. -/
structure AsksOnlyIfBuildable (l : ProtocolLayout) (r : RecordLayout) (fields tail : List Value)
    (meaning : SizeMeaning) : Prop where
  caused : ∀ allocator error, (l.createAsking allocator r fields tail meaning).1 = .error error →
    ∀ size ∈ (l.createAsking allocator r fields tail meaning).2,
      CausedBy size (allocator size) error
  refused : r.Accepts fields tail →
    twoPow (8 * l.envelope.size.size) ≤ r.byteCount tail.length →
    ∀ allocator, l.createAsking allocator r fields tail meaning = (.error .sizeOverflow, [])

/-! ## What becomes of the answer -/

variable {l : ProtocolLayout} {r : RecordLayout} {fields tail : List Value} {meaning : SizeMeaning}
  {e : EncodedRecord} {memory : Bytes}

/-- A record takes as many bytes as its size says. -/
theorem RecordLayout.byteCount_eq {count size : Nat} (h : r.recordSize? count = some size) :
    r.byteCount count = size := by
  obtain ⟨htail, hnone⟩ := recordSize?_eq_some.mp h
  rcases ht : r.tail with _ | t
  · simp [byteCount, ht, (hnone ht).2]
  · simp [byteCount, ht, (htail t ht).1]

/-- What is made of memory from an allocator. -/
theorem ProtocolLayout.finish_some (l : ProtocolLayout) (r : RecordLayout) (e : EncodedRecord)
    (memory : Bytes) :
    l.finish r e (.ok (some memory)) =
      if memory.length < e.size then .error (.bufferTooSmall e.size memory.length)
      else (l.envelopeBits r e.storedSize).map fun (tagBits, sizeBits) =>
        ⟨overwriteAll memory (l.pieces r e tagBits sizeBits), l.envelope, l.order⟩ := by
  dsimp only [finish, memoryOf, bind, Except.bind]
  rw [InPlace.memoryAfter, outcome_writeRecord]
  by_cases hshort : memory.length < e.size
  · simp only [if_pos hshort]
  · simp only [if_neg hshort]
    rcases l.envelopeBits r e.storedSize with error | ⟨tagBits, sizeBits⟩ <;> rfl

/-- When the envelope has bits, only the answer can be the cause of an error. -/
theorem ProtocolLayout.causedBy_of_finish {answer : AllocationAnswer} {bits : Nat × Nat}
    {error : RecordError} (hbits : l.envelopeBits r e.storedSize = .ok bits)
    (h : l.finish r e answer = .error error) : CausedBy e.size answer error := by
  rcases answer with failure | _ | memory
  · cases h
    exact .failure failure
  · cases h
    exact .noMemory
  · rw [finish_some, hbits] at h
    split at h
    · rename_i hshort
      cases h
      exact .tooSmall memory hshort
    · cases h

/-- A size that has no bits in the envelope is found out with the memory at hand. -/
theorem ProtocolLayout.createAsking_of_large {m : DataModel} (hl : l.envelope = .ofModel m)
    (hd : Protocol.fitsInt r.discriminant = true) (h : r.encode fields tail meaning = .ok e)
    (hlarge : twoPow (8 * l.envelope.size.size) ≤ e.storedSize) {allocator : Allocator}
    (hmemory : allocator e.size = .ok (some memory)) (hroom : e.size ≤ memory.length) :
    l.createAsking allocator r fields tail meaning = (.error .sizeOverflow, [e.size]) := by
  obtain ⟨tagBits, hbits⟩ := envelopeBits_eq hl hd e.storedSize
  rw [if_neg (Nat.not_lt.mpr hlarge)] at hbits
  rw [createAsking_of_encode_ok h, hmemory, finish_some, if_neg (Nat.not_lt.mpr hroom), hbits]
  rfl

namespace AsksOnlyIfBuildable

/-- Values that are not encoded are refused for their size, if they fit their members. -/
theorem of_encode_error {error : RecordError} (h : r.encode fields tail meaning = .error error)
    (hfits : r.Accepts fields tail → ∀ size, r.recordSize? tail.length = some size →
      r.byteCount tail.length < twoPow (8 * l.envelope.size.size)) :
    AsksOnlyIfBuildable l r fields tail meaning where
  caused allocator _ _ size hmem := by
    rw [ProtocolLayout.createAsking_of_encode_error h] at hmem
    cases hmem
  refused haccepts hlarge allocator := by
    rw [ProtocolLayout.createAsking_of_encode_error h]
    rcases hsize : r.recordSize? tail.length with _ | size
    · cases h.symm.trans (haccepts.encode_eq_error meaning hsize)
      rfl
    · exact absurd (hfits haccepts size hsize) (Nat.not_lt.mpr hlarge)

/-- After the request for a record whose envelope has bits only the answer can be the cause of an
error. -/
theorem of_encode_ok {bits : Nat × Nat} (h : r.encode fields tail meaning = .ok e)
    (hfits : e.size < twoPow (8 * l.envelope.size.size))
    (hbits : l.envelopeBits r e.storedSize = .ok bits) :
    AsksOnlyIfBuildable l r fields tail meaning where
  caused allocator error herror size hmem := by
    rw [ProtocolLayout.createAsking_of_encode_ok h] at herror hmem
    rw [List.mem_singleton.mp hmem]
    exact ProtocolLayout.causedBy_of_finish hbits herror
  refused _ hlarge _ := by
    rw [RecordLayout.byteCount_eq (RecordLayout.encode_eq_ok.mp h).size] at hlarge
    exact absurd hfits (Nat.not_lt.mpr hlarge)

/-- Memory is asked for in vain for a record with more bytes than its size member can count: it is
not refused. -/
theorem size_lt (h : AsksOnlyIfBuildable l r fields tail meaning)
    (haccepts : r.Accepts fields tail) {size : Nat}
    (hsize : r.recordSize? tail.length = some size) :
    size < twoPow (8 * l.envelope.size.size) := by
  by_contra hlarge
  obtain ⟨_, _, hencode⟩ := haccepts.exists_encode meaning hsize
  have hasked := ProtocolLayout.createAsking_of_encode_ok (l := l) hencode zeroAllocator
  rw [h.refused haccepts (by rwa [RecordLayout.byteCount_eq hsize, ← Nat.not_lt])] at hasked
  cases (Prod.mk.inj hasked).2

end AsksOnlyIfBuildable

/-- Memory is asked for in vain just for records with more bytes than the size member can count.
Their size is checked only when they are written, and where the size member tells the number of
elements it is another number that is checked. -/
theorem asksOnlyIfBuildable_iff {policy : DiscriminantPolicy} {messages : List Message}
    {p : Protocol} {m : DataModel} {order : ByteOrder} {l : ProtocolLayout} {r : RecordLayout}
    (hp : Protocol.resolve policy messages = .ok p) (h : ProtocolLayout.compute p m order = .ok l)
    (hr : r ∈ l.records) (fields tail : List Value) (meaning : SizeMeaning) :
    AsksOnlyIfBuildable l r fields tail meaning ↔
      (r.Accepts fields tail → ∀ size, r.recordSize? tail.length = some size →
        size < twoPow (8 * l.envelope.size.size)) := by
  have hl := ProtocolLayout.envelope_of_compute h
  have hs := ProtocolLayout.sound_of_compute h hr
  have hd := ProtocolLayout.fitsInt_discriminant hp h hr
  constructor
  · exact fun hasks haccepts size hsize => hasks.size_lt haccepts hsize
  · intro hfits
    rcases hencode : r.encode fields tail meaning with error | e
    · exact .of_encode_error hencode fun haccepts size hsize =>
        RecordLayout.byteCount_eq hsize ▸ hfits haccepts size hsize
    · have hencodes := RecordLayout.encode_eq_ok.mp hencode
      have hsize := hfits hencodes.accepts e.size hencodes.size
      obtain ⟨tagBits, hbits⟩ := ProtocolLayout.envelopeBits_eq hl hd e.storedSize
      rw [if_pos] at hbits
      · exact .of_encode_ok hencode hsize hbits
      · rw [hencodes.storedSize]
        exact Nat.lt_of_le_of_lt (hs.storedSize_le hencodes.size) hsize

theorem asksOnlyIfBuildable_sample :
    Protocol.resolve .unique [Sample.message] = .ok Sample.protocol ∧
      ProtocolLayout.compute Sample.protocol .ilp32 .big = .ok Sample.layout ∧
      Sample.record ∈ Sample.layout.records ∧
      AsksOnlyIfBuildable Sample.layout Sample.record Sample.fields Sample.tail .bytes := by
  have hresolve : Protocol.resolve .unique [Sample.message] = .ok Sample.protocol := rfl
  refine ⟨hresolve, Sample.compute_protocol, Sample.record_mem, ?_⟩
  refine (asksOnlyIfBuildable_iff hresolve Sample.compute_protocol Sample.record_mem
    Sample.fields Sample.tail .bytes).mpr fun _ size hsize => ?_
  cases hsize
  decide

namespace Sample

/-- A tail of 2²⁹ elements, which have eight bytes each. -/
def longTail : List Value :=
  List.replicate 536870912 (.bool true)

theorem recordSize?_longTail : record.recordSize? longTail.length = some 4294967312 := by
  rw [longTail, List.length_replicate]
  rfl

theorem accepts_longTail : record.Accepts Sample.fields longTail := by
  refine ⟨rfl, by decide, fun t ht v hv => ?_, nofun⟩
  cases ht
  rw [List.eq_of_mem_replicate hv]
  rfl

end Sample

/-- On a machine of 32 bits memory is asked for in vain, whatever the size member means. -/
theorem not_asksOnlyIfBuildable_longTail :
    Protocol.resolve .unique [Sample.message] = .ok Sample.protocol ∧
      ProtocolLayout.compute Sample.protocol .ilp32 .big = .ok Sample.layout ∧
      Sample.record ∈ Sample.layout.records ∧
      (∀ meaning, ¬ AsksOnlyIfBuildable Sample.layout Sample.record Sample.fields Sample.longTail
        meaning) ∧
      Sample.layout.createAsking zeroAllocator Sample.record Sample.fields Sample.longTail .bytes =
        (.error .sizeOverflow, [4294967312]) := by
  refine ⟨rfl, Sample.compute_protocol, Sample.record_mem, fun meaning hasks => ?_, ?_⟩
  · exact absurd (hasks.size_lt Sample.accepts_longTail Sample.recordSize?_longTail) (by decide)
  · obtain ⟨_, _, hencode⟩ :=
      Sample.accepts_longTail.exists_encode .bytes Sample.recordSize?_longTail
    have hlarge : twoPow (8 * Sample.layout.envelope.size.size) ≤ 4294967312 := by decide
    exact ProtocolLayout.createAsking_of_large (m := .ilp32) rfl rfl hencode hlarge rfl
      (Nat.le_of_eq List.length_replicate.symm)

end MessageSchema.Memory
