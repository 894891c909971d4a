import MessageSchema.Proofs.Memory.Encode

/-!
# Building records in place

`Built l r fields tail meaning size memory after` says what `after` is to the `memory` that a record
of `size` bytes was built in: the discriminant, the size, the fields and the tail elements hold
their values, and no other byte has changed. Main statement: `atomic_constructInPlace`, by which an
error leaves the memory as it was, no error leaves a record built, and a record in memory from an
allocator is the one built in place there.

- **Writes** (`pieces`): a record is written as pieces of data, which lie one behind the other
  (`pieces_ordered`) and inside the record (`pieces_inside`).
- **Runs** (`outcome_writeRecord`): the memory is left alone, or all the pieces are written to it.
-/

namespace MessageSchema.Memory

namespace RecordLayout

/-- The bytes that are written for a record with `count` tail elements. -/
def regions (e : EnvelopeLayout) (r : RecordLayout) (count : Nat) : List Region :=
  r.fixedRegions e ++ r.tail.toList.map fun t => ⟨t.offset, count * t.scalar.size⟩

variable {r : RecordLayout}

theorem field_mem_regions {f : MemberLayout} (hf : f ∈ r.fields) (e : EnvelopeLayout)
    (count : Nat) : f.region ∈ r.regions e count := by
  simp only [regions, fixedRegions, List.mem_append, List.mem_cons, List.mem_map]
  exact .inl (.inr (.inr ⟨f, hf, rfl⟩))

theorem tail_mem_regions {t : MemberLayout} (ht : t ∈ r.tail) (e : EnvelopeLayout) (count : Nat) :
    ⟨t.offset, count * t.scalar.size⟩ ∈ r.regions e count := by
  simp [regions, Option.mem_def.mp ht]

/-- A record is large enough for all that is written of it. -/
theorem Sound.regions_le_size {m : DataModel} {count size : Nat} (h : r.Sound m)
    (hsize : r.recordSize? count = some size) :
    ∀ g ∈ r.regions (EnvelopeLayout.ofModel m) count, g.stop ≤ size := by
  intro g hg
  rcases List.mem_append.mp hg with hg | hg
  · exact Nat.le_trans (h.regions_inside g hg) (structuralSize_le hsize)
  · obtain ⟨t, ht, rfl⟩ := List.mem_map.mp hg
    rw [Option.mem_toList] at ht
    have hinside := h.tail_inside ht
    have hstop := ((recordSize?_eq_some.mp hsize).1 t ht).1
    simp only [Region.stop]
    omega

end RecordLayout

/-- Memory holds the bits of a value at an offset. -/
def HoldsValue (order : ByteOrder) (memory : Bytes) (offset : Nat) (s : Scalar) (v : Value) :
    Prop :=
  ∃ bits, v.toBits? s = some bits ∧ slice memory offset s.size = order.encode s.size bits

/-- Memory holds the bits of a number at an offset. -/
def HoldsNumber (order : ByteOrder) (memory : Bytes) (offset : Nat) (s : Scalar) (n : Int) :
    Prop :=
  ∃ v : Value, v.number? = some n ∧ HoldsValue order memory offset s v

/-- What memory is after a record of `size` bytes was built in it. -/
structure Built (l : ProtocolLayout) (r : RecordLayout) (fields tail : List Value)
    (meaning : SizeMeaning) (size : Nat) (memory after : Bytes) : Prop where
  recordSize : r.recordSize? tail.length = some size
  fits : size ≤ memory.length
  length : after.length = memory.length
  tag : HoldsNumber l.order after l.envelope.tagOffset l.envelope.tag r.discriminant.toInt
  storedSize : HoldsNumber l.order after l.envelope.sizeOffset l.envelope.size
    (r.storedSize meaning size tail.length)
  fieldValues : List.Forall₂ (fun f v => HoldsValue l.order after f.offset f.scalar v)
    r.fields fields
  tailValues : ∀ t ∈ r.tail, ∀ i v, tail[i]? = some v →
    HoldsValue l.order after (t.offset + i * t.scalar.size) t.scalar v
  noTail : r.tail = none → tail = []
  inside : ∀ g ∈ r.regions l.envelope tail.length, g.stop ≤ size
  frame : ∀ i, (∀ g ∈ r.regions l.envelope tail.length, ¬ g.Contains i) → after[i]? = memory[i]?

namespace InPlace

variable {α β : Type} {memory : Bytes}

theorem outcome_bind (x : InPlace α) (f : α → InPlace β) :
    (x >>= f).outcome memory = match x.outcome memory with
      | (.ok a, after) => (f a).outcome after
      | (.error e, after) => (.error e, after) := by
  rw [outcome, run_run_bind]
  rcases h : x.run.run memory with ⟨_ | _, _⟩ <;> simp only [outcome, h]

theorem outcome_get : (get : InPlace Bytes).outcome memory = (.ok memory, memory) :=
  rfl

theorem outcome_modify (f : Bytes → Bytes) :
    (modify f : InPlace Unit).outcome memory = (.ok (), f memory) :=
  rfl

theorem outcome_ofExcept (x : Except RecordError α) :
    (ofExcept x : InPlace α).outcome memory = (x, memory) :=
  run_run_ofExcept memory x

theorem memoryAfter_eq_ok {x : InPlace Unit} {after : Bytes} :
    x.memoryAfter memory = .ok after ↔ x.outcome memory = (.ok (), after) := by
  unfold memoryAfter
  split <;> simp_all

end InPlace

namespace ProtocolLayout

/-- The writes of tail elements, the first at `offset`. -/
def elementPieces (order : ByteOrder) (offset size : Nat) (elements : List Nat) : List Piece :=
  elements.mapIdx fun i bits => ⟨offset + i * size, order.encode size bits⟩

/-- The writes of the members of a record. -/
def memberPieces (order : ByteOrder) (members : List (MemberLayout × Nat)) : List Piece :=
  members.map fun (f, bits) => ⟨f.offset, order.encode f.scalar.size bits⟩

/-- The writes of what every record of a kind has. -/
def fixedPieces (l : ProtocolLayout) (r : RecordLayout) (e : EncodedRecord)
    (tagBits sizeBits : Nat) : List Piece :=
  ⟨l.envelope.tagOffset, l.order.encode l.envelope.tag.size tagBits⟩ ::
    ⟨l.envelope.sizeOffset, l.order.encode l.envelope.size.size sizeBits⟩ ::
    memberPieces l.order (r.fields.zip e.fields)

/-- The writes of a record in their order. -/
def pieces (l : ProtocolLayout) (r : RecordLayout) (e : EncodedRecord) (tagBits sizeBits : Nat) :
    List Piece :=
  l.fixedPieces r e tagBits sizeBits ++
    r.tail.toList.flatMap fun t => elementPieces l.order t.offset t.scalar.size e.tail

theorem writeMembers_eq (l : ProtocolLayout) (memory : Bytes)
    (members : List (MemberLayout × Nat)) :
    l.writeMembers memory members = overwriteAll memory (memberPieces l.order members) := by
  rw [writeMembers, overwriteAll, memberPieces, List.foldl_map]

/-- The elements of a tail are written piece by piece. -/
theorem writeElements_eq (l : ProtocolLayout) (memory : Bytes) (offset size : Nat)
    (elements : List Nat) :
    l.writeElements memory offset size elements =
      overwriteAll memory (elementPieces l.order offset size elements) := by
  induction elements generalizing memory offset with
  | nil => rfl
  | cons bits elements ih =>
    rw [writeElements, ih, elementPieces, elementPieces, List.mapIdx_cons]
    simp only [overwriteAll, List.foldl_cons, Nat.zero_mul, Nat.add_zero, Nat.succ_mul]
    congr 3
    funext i bits
    rw [Nat.add_assoc, Nat.add_comm size]

section Element

variable {order : ByteOrder} {offset size : Nat} {elements : List Nat}

theorem mem_elementPieces {p : Piece} :
    p ∈ elementPieces order offset size elements ↔
      ∃ i bits, elements[i]? = some bits ∧ p = ⟨offset + i * size, order.encode size bits⟩ := by
  simp only [elementPieces, List.mem_mapIdx, List.getElem?_eq_some_iff]
  constructor
  · rintro ⟨i, hi, rfl⟩
    exact ⟨i, _, ⟨hi, rfl⟩, rfl⟩
  · rintro ⟨i, _, ⟨hi, rfl⟩, rfl⟩
    exact ⟨i, hi, rfl⟩

/-- All tail elements lie in the region of the tail. -/
theorem elementPieces_inside {p : Piece} (hp : p ∈ elementPieces order offset size elements) :
    offset ≤ p.region.start ∧ p.region.stop ≤ offset + elements.length * size := by
  obtain ⟨i, bits, hi, rfl⟩ := mem_elementPieces.mp hp
  have hlt : i + 1 ≤ elements.length := (List.getElem?_eq_some_iff.mp hi).1
  have := Nat.mul_le_mul_right size hlt
  rw [Nat.add_mul, Nat.one_mul] at this
  simp only [Piece.region, Region.stop, ByteOrder.length_encode]
  omega

/-- The elements of a tail stand one behind the other. -/
theorem elementPieces_ordered (order : ByteOrder) (offset size : Nat) (elements : List Nat) :
    (elementPieces order offset size elements).Pairwise (·.region.Before ·.region) := by
  rw [List.pairwise_iff_getElem]
  intro i j hi hj hij
  have := Nat.mul_le_mul_right size (Nat.succ_le_of_lt hij)
  rw [Nat.succ_mul] at this
  simp only [elementPieces, List.getElem_mapIdx, Region.Before, Piece.region, Region.stop,
    ByteOrder.length_encode]
  omega

end Element

section Pieces

variable {l : ProtocolLayout} {r : RecordLayout} {e : EncodedRecord} {tagBits sizeBits : Nat}

theorem map_region_fixedPieces (h : e.fields.length = r.fields.length) :
    (l.fixedPieces r e tagBits sizeBits).map (·.region) = r.fixedRegions l.envelope := by
  have hmembers : (memberPieces l.order (r.fields.zip e.fields)).map (·.region) =
      r.fields.map (·.region) := by
    rw [memberPieces, List.map_map]
    conv => rhs; rw [← List.map_fst_zip (Nat.le_of_eq h.symm), List.map_map]
    refine List.map_congr_left fun x _ => ?_
    simp [Piece.region, MemberLayout.region]
  rw [fixedPieces, List.map_cons, List.map_cons, hmembers]
  simp [RecordLayout.fixedRegions, Piece.region, EnvelopeLayout.tagRegion,
    EnvelopeLayout.sizeRegion]

theorem region_mem_fixedRegions (h : e.fields.length = r.fields.length) {p : Piece}
    (hp : p ∈ l.fixedPieces r e tagBits sizeBits) : p.region ∈ r.fixedRegions l.envelope :=
  map_region_fixedPieces h ▸ List.mem_map_of_mem hp

/-- A piece is that of a fixed member or of an element. -/
theorem mem_pieces {p : Piece} :
    p ∈ l.pieces r e tagBits sizeBits ↔ p ∈ l.fixedPieces r e tagBits sizeBits ∨
      ∃ t ∈ r.tail, p ∈ elementPieces l.order t.offset t.scalar.size e.tail := by
  simp [pieces]

theorem tag_mem_pieces :
    ⟨l.envelope.tagOffset, l.order.encode l.envelope.tag.size tagBits⟩ ∈
      l.pieces r e tagBits sizeBits :=
  mem_pieces.mpr (.inl (List.mem_cons_self ..))

theorem size_mem_pieces :
    ⟨l.envelope.sizeOffset, l.order.encode l.envelope.size.size sizeBits⟩ ∈
      l.pieces r e tagBits sizeBits :=
  mem_pieces.mpr (.inl (List.mem_cons_of_mem _ (List.mem_cons_self ..)))

theorem field_mem_pieces {i bits : Nat} {f : MemberLayout} (hf : r.fields[i]? = some f)
    (hbits : e.fields[i]? = some bits) :
    ⟨f.offset, l.order.encode f.scalar.size bits⟩ ∈ l.pieces r e tagBits sizeBits := by
  have hmem : (f, bits) ∈ r.fields.zip e.fields :=
    List.mem_of_getElem? (List.getElem?_zip_eq_some.mpr ⟨hf, hbits⟩)
  refine mem_pieces.mpr (.inl (List.mem_cons_of_mem _ (List.mem_cons_of_mem _ ?_)))
  exact List.mem_map.mpr ⟨_, hmem, rfl⟩

theorem element_mem_pieces {i bits : Nat} {t : MemberLayout} (ht : t ∈ r.tail)
    (hbits : e.tail[i]? = some bits) :
    ⟨t.offset + i * t.scalar.size, l.order.encode t.scalar.size bits⟩ ∈
      l.pieces r e tagBits sizeBits :=
  mem_pieces.mpr (.inr ⟨t, ht, mem_elementPieces.mpr ⟨i, bits, hbits, rfl⟩⟩)

/-- No write leaves the regions of the record. -/
theorem exists_region_of_mem_pieces (h : e.fields.length = r.fields.length) {p : Piece}
    (hp : p ∈ l.pieces r e tagBits sizeBits) :
    ∃ g ∈ r.regions l.envelope e.tail.length,
      g.start ≤ p.region.start ∧ p.region.stop ≤ g.stop := by
  rcases mem_pieces.mp hp with hp | ⟨t, ht, hp⟩
  · exact ⟨p.region, List.mem_append_left _ (region_mem_fixedRegions h hp), Nat.le_refl _,
      Nat.le_refl _⟩
  · exact ⟨_, RecordLayout.tail_mem_regions ht _ _, elementPieces_inside hp⟩

/-- The pieces of a record do not overlap. -/
theorem pieces_ordered {m : DataModel} (hl : l.envelope = .ofModel m) (hs : r.Sound m)
    (h : e.fields.length = r.fields.length) :
    (l.pieces r e tagBits sizeBits).Pairwise (·.region.Before ·.region) := by
  refine List.pairwise_append.mpr ⟨?_, ?_, ?_⟩
  · rw [← List.pairwise_map (f := Piece.region), map_region_fixedPieces h, hl]
    exact hs.regions_ordered
  · rcases r.tail with _ | t
    · exact List.Pairwise.nil
    · simpa using elementPieces_ordered l.order t.offset t.scalar.size e.tail
  · intro p hp q hq
    simp only [List.mem_flatMap, Option.mem_toList] at hq
    obtain ⟨t, ht, hq⟩ := hq
    calc p.region.stop
        ≤ endOfMembers (EnvelopeLayout.ofModel m).headerSize r.fields :=
          hs.regions_le_endOfMembers _ (hl ▸ region_mem_fixedRegions h hp)
      _ ≤ t.offset := hs.tail_behind ht
      _ ≤ q.region.start := (elementPieces_inside hq).1

end Pieces

section Built

variable {m : DataModel} {l : ProtocolLayout} {r : RecordLayout} {fields tail : List Value}
  {meaning : SizeMeaning} {e : EncodedRecord} {memory : Bytes} {tagBits sizeBits : Nat}

/-- They lie inside the record. -/
theorem pieces_inside (hl : l.envelope = .ofModel m) (hs : r.Sound m)
    (he : r.Encodes fields tail meaning e) {p : Piece}
    (hp : p ∈ l.pieces r e tagBits sizeBits) : p.region.stop ≤ e.size := by
  obtain ⟨g, hg, -, hstop⟩ := exists_region_of_mem_pieces he.length_fields hp
  rw [hl, he.length_tail] at hg
  exact Nat.le_trans hstop (hs.regions_le_size he.size g hg)

/-- A record is built when all its pieces are written. -/
theorem built_overwriteAll (hl : l.envelope = .ofModel m) (hs : r.Sound m)
    (he : r.Encodes fields tail meaning e) (hfits : e.size ≤ memory.length)
    (hbits : l.envelopeBits r e.storedSize = .ok (tagBits, sizeBits)) :
    Built l r fields tail meaning e.size memory
      (overwriteAll memory (l.pieces r e tagBits sizeBits)) := by
  have hinside : ∀ p ∈ l.pieces r e tagBits sizeBits, p.region.stop ≤ memory.length :=
    fun p hp => Nat.le_trans (pieces_inside hl hs he hp) hfits
  have holds : ∀ (v : Value) (s : Scalar) (offset bits : Nat), v.toBits? s = some bits →
      ⟨offset, l.order.encode s.size bits⟩ ∈ l.pieces r e tagBits sizeBits →
      HoldsValue l.order (overwriteAll memory (l.pieces r e tagBits sizeBits)) offset s v := by
    intro v s offset bits hv hp
    refine ⟨bits, hv, ?_⟩
    simpa using slice_overwriteAll hinside (pieces_ordered hl hs he.length_fields) hp
  obtain ⟨htag, hsize⟩ := envelopeBits_eq_ok.mp hbits
  refine ⟨he.size, hfits, length_overwriteAll hinside, ?tag, ?size, ?fields, ?tail,
    fun h => (he.noTail h).1, hl ▸ hs.regions_le_size he.size, ?frame⟩
  case tag =>
    obtain ⟨v, hn, hv⟩ := exists_value_of_numberBits htag
    exact ⟨v, hn, holds _ _ _ _ hv tag_mem_pieces⟩
  case size =>
    obtain ⟨v, hn, hv⟩ := exists_value_of_numberBits hsize
    exact ⟨v, he.storedSize ▸ hn, holds _ _ _ _ hv size_mem_pieces⟩
  case fields =>
    refine List.forall₂_iff_get.mpr ⟨he.length.symm, fun i hi hi' => ?_⟩
    have hf := List.getElem?_eq_getElem hi
    obtain ⟨bits, hmem, hv⟩ := he.getElem?_fields hf (List.getElem?_eq_getElem hi')
    exact holds _ _ _ _ hv (field_mem_pieces hf hmem)
  case tail =>
    intro t ht i v hi
    obtain ⟨bits, hmem, hv⟩ := he.getElem?_tail ht hi
    exact holds _ _ _ _ hv (element_mem_pieces ht hmem)
  case frame =>
    intro i hi
    -- each piece lies in the region of a member, the elements in that of the tail
    refine getElem?_overwriteAll hinside fun p hp hcontains => ?_
    obtain ⟨g, hg, hstart, hstop⟩ := exists_region_of_mem_pieces he.length_fields hp
    rw [he.length_tail] at hg
    exact hi g hg ⟨Nat.le_trans hstart hcontains.1, Nat.lt_of_lt_of_le hcontains.2 hstop⟩

end Built

/-! ## Runs -/

variable {l : ProtocolLayout} {r : RecordLayout} {fields tail : List Value} {meaning : SizeMeaning}

/-- A record is written whole, or the memory is left as it was. -/
theorem outcome_writeRecord (l : ProtocolLayout) (r : RecordLayout) (e : EncodedRecord)
    (memory : Bytes) :
    (l.writeRecord r e).outcome memory =
      if memory.length < e.size then (.error (.bufferTooSmall e.size memory.length), memory)
      else match l.envelopeBits r e.storedSize with
        | .error error => (.error error, memory)
        | .ok (tagBits, sizeBits) =>
          (.ok (), overwriteAll memory (l.pieces r e tagBits sizeBits)) := by
  rw [writeRecord, InPlace.outcome_bind, InPlace.outcome_get]
  dsimp only
  split
  · rfl
  rw [InPlace.outcome_bind, InPlace.outcome_ofExcept]
  rcases l.envelopeBits r e.storedSize with error | ⟨tagBits, sizeBits⟩
  · rfl
  simp only [InPlace.outcome_bind, InPlace.outcome_modify, writeMembers_eq, pieces,
    overwriteAll_append]
  rcases r.tail with _ | t
  · rfl
  · simp only [InPlace.outcome_modify, writeElements_eq, Option.toList_some, List.flatMap_singleton]
    rfl

/-- What a construction in place does to the memory. -/
theorem outcome_constructInPlace (l : ProtocolLayout) (r : RecordLayout) (fields tail : List Value)
    (meaning : SizeMeaning) (memory : Bytes) :
    (l.constructInPlace r fields tail meaning).outcome memory =
      match r.encode fields tail meaning with
      | .error error => (.error error, memory)
      | .ok e => (l.writeRecord r e).outcome memory := by
  rw [constructInPlace, InPlace.outcome_bind, InPlace.outcome_ofExcept]
  rcases r.encode fields tail meaning with error | e <;> rfl

theorem outcome_writeRecord_eq_ok {e : EncodedRecord} {memory after : Bytes} :
    (l.writeRecord r e).outcome memory = (.ok (), after) ↔
      e.size ≤ memory.length ∧ ∃ tagBits sizeBits,
        l.envelopeBits r e.storedSize = .ok (tagBits, sizeBits) ∧
          overwriteAll memory (l.pieces r e tagBits sizeBits) = after := by
  rw [outcome_writeRecord]
  split
  · rename_i hshort
    simp [Nat.not_le.mpr hshort]
  · rename_i hfits
    rcases l.envelopeBits r e.storedSize with error | ⟨tagBits, sizeBits⟩ <;>
      simp [Nat.not_lt.mp hfits]

/-- A construction in place succeeds just if the values are encoded and the record is written. -/
theorem outcome_constructInPlace_eq_ok {memory after : Bytes} :
    (l.constructInPlace r fields tail meaning).outcome memory = (.ok (), after) ↔
      ∃ e, r.encode fields tail meaning = .ok e ∧
        (l.writeRecord r e).outcome memory = (.ok (), after) := by
  rw [outcome_constructInPlace]
  rcases r.encode fields tail meaning with error | e <;> simp

/-- An error leaves the memory as it was. -/
theorem eq_of_constructInPlace_error {memory after : Bytes} {error : RecordError}
    (h : (l.constructInPlace r fields tail meaning).outcome memory = (.error error, after)) :
    after = memory := by
  rw [outcome_constructInPlace] at h
  split at h
  · cases h
    rfl
  rw [outcome_writeRecord] at h
  split at h
  · cases h
    rfl
  split at h
  · cases h
    rfl
  · cases h

/-- After a construction that succeeds, the memory holds the record. -/
theorem built_of_constructInPlace {m : DataModel} (hl : l.envelope = .ofModel m) (hs : r.Sound m)
    {memory after : Bytes}
    (h : (l.constructInPlace r fields tail meaning).outcome memory = (.ok (), after)) :
    ∃ size, Built l r fields tail meaning size memory after := by
  obtain ⟨e, he, h⟩ := outcome_constructInPlace_eq_ok.mp h
  obtain ⟨hfits, tagBits, sizeBits, hbits, rfl⟩ := outcome_writeRecord_eq_ok.mp h
  exact ⟨e.size, built_overwriteAll hl hs (RecordLayout.encode_eq_ok.mp he) hfits hbits⟩

/-! ## Memory from an allocator -/

/-- What becomes of an encoded record with the answer to the request for its memory. -/
def finish (l : ProtocolLayout) (r : RecordLayout) (e : EncodedRecord) (answer : AllocationAnswer) :
    Except RecordError Envelope := do
  let memory ← memoryOf answer
  let after ← (l.writeRecord r e).memoryAfter memory
  return ⟨after, l.envelope, l.order⟩

/-- The one request for memory comes after the values are encoded and before anything is written. -/
theorem run_createWith {m : Type → Type} [Monad m] [LawfulMonad m] (l : ProtocolLayout)
    (allocate : Nat → m AllocationAnswer) (r : RecordLayout) (fields tail : List Value)
    (meaning : SizeMeaning) :
    (l.createWith allocate r fields tail meaning).run =
      match r.encode fields tail meaning with
      | .error error => pure (.error error)
      | .ok e => l.finish r e <$> allocate e.size := by
  rw [createWith, ExceptT.run_bind, run_ofExcept, pure_bind]
  rcases r.encode fields tail meaning with error | e
  · rfl
  simp only [ExceptT.run_bind, ExceptT.run_liftM, run_ofExcept, pure_bind, map_eq_pure_bind,
    bind_assoc]
  refine bind_congr fun answer => ?_
  rw [finish]
  rcases memoryOf answer with error | memory
  · rfl
  dsimp only [bind, Except.bind]
  rcases (l.writeRecord r e).memoryAfter memory with error | after <;> rfl

/-- A record is encoded before the allocator is asked, and finished in the memory that it gives. -/
theorem create_eq (l : ProtocolLayout) (allocator : Allocator) (r : RecordLayout)
    (fields tail : List Value) (meaning : SizeMeaning) :
    l.create allocator r fields tail meaning =
      r.encode fields tail meaning >>= fun e => l.finish r e (allocator e.size) := by
  rw [create, run_createWith]
  rcases r.encode fields tail meaning with error | e <;> rfl

theorem memoryOf_eq_ok {answer : AllocationAnswer} {memory : Bytes} :
    memoryOf answer = .ok memory ↔ answer = .ok (some memory) := by
  unfold memoryOf
  split <;> simp_all

/-- A record in memory from an allocator is the one that is built in place there. -/
theorem create_eq_ok {allocator : Allocator} {env : Envelope} :
    l.create allocator r fields tail meaning = .ok env ↔
      ∃ size memory after, r.recordSize? tail.length = some size ∧
        allocator size = .ok (some memory) ∧
        (l.constructInPlace r fields tail meaning).outcome memory = (.ok (), after) ∧
        env = ⟨after, l.envelope, l.order⟩ := by
  simp only [create_eq, finish, bind_eq_ok, memoryOf_eq_ok, InPlace.memoryAfter_eq_ok,
    outcome_constructInPlace_eq_ok]
  constructor
  · rintro ⟨e, he, memory, hmemory, after, hafter, h⟩
    cases h
    exact ⟨e.size, memory, after, (RecordLayout.encode_eq_ok.mp he).size, hmemory, ⟨e, he, hafter⟩,
      rfl⟩
  · rintro ⟨size, memory, after, hsize, hmemory, ⟨e, he, hafter⟩, rfl⟩
    have hsame : some e.size = some size := (RecordLayout.encode_eq_ok.mp he).size.symm.trans hsize
    cases hsame
    exact ⟨e, he, memory, hmemory, after, hafter, rfl⟩

end ProtocolLayout

namespace Sample

/-- Values of the fixed fields. -/
def fields : List Value :=
  [.integer ⟨true, .w8⟩ (-1) (by decide), .integer ⟨true, .w16⟩ 300 (by decide),
    .integer ⟨false, .w32⟩ 7 (by decide)]

/-- Values of the tail elements. -/
def tail : List Value :=
  [.integer ⟨false, .w64⟩ 5 (by decide)]

/-- What 26 bytes of 0xAA are after the record was built in them. -/
def built : Bytes :=
  [0, 0, 0, 3, 0, 0, 0, 24, 0xFF, 0xAA, 1, 0x2C, 7, 0xAA, 0xAA, 0xAA, 0, 0, 0, 0, 0, 0, 0, 5,
    0xAA, 0xAA]

theorem outcome_constructInPlace :
    (layout.constructInPlace record fields tail .bytes).outcome (List.replicate 26 0xAA) =
      (.ok (), built) :=
  rfl

end Sample

/-- An error in place leaves the memory as it was; without one a record is built, and nothing else
in memory has changed. Memory from an allocator ends up the same way. -/
theorem atomic_constructInPlace {p : Protocol} {m : DataModel} {order : ByteOrder}
    {l : ProtocolLayout} {r : RecordLayout} (h : ProtocolLayout.compute p m order = .ok l)
    (hr : r ∈ l.records) (fields tail : List Value) (meaning : SizeMeaning) (memory : Bytes) :
    (∀ error after, (l.constructInPlace r fields tail meaning).outcome memory =
        (.error error, after) → after = memory) ∧
      (∀ after, (l.constructInPlace r fields tail meaning).outcome memory = (.ok (), after) →
        ∃ size, Built l r fields tail meaning size memory after) ∧
      ∀ allocator env, l.create allocator r fields tail meaning = .ok env ↔
        ∃ size given after, r.recordSize? tail.length = some size ∧
          allocator size = .ok (some given) ∧
          (l.constructInPlace r fields tail meaning).outcome given = (.ok (), after) ∧
          env = ⟨after, l.envelope, l.order⟩ := by
  have hl := ProtocolLayout.envelope_of_compute h
  have hs := ProtocolLayout.sound_of_compute h hr
  exact ⟨fun _ _ => ProtocolLayout.eq_of_constructInPlace_error,
    fun _ => ProtocolLayout.built_of_constructInPlace hl hs, fun _ _ => ProtocolLayout.create_eq_ok⟩

theorem atomic_sample :
    ProtocolLayout.compute Sample.protocol .ilp32 .big = .ok Sample.layout ∧
      Sample.record ∈ Sample.layout.records ∧
      ∃ size, Built Sample.layout Sample.record Sample.fields Sample.tail .bytes size
        (List.replicate 26 0xAA) Sample.built :=
  ⟨Sample.compute_protocol, Sample.record_mem,
    (atomic_constructInPlace Sample.compute_protocol Sample.record_mem Sample.fields Sample.tail
      .bytes _).2.1 _ Sample.outcome_constructInPlace⟩

end MessageSchema.Memory
