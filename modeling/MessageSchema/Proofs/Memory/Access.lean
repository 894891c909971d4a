import Mathlib.Data.List.Induction
import MessageSchema.Proofs.Memory.View

/-!
# Reading memory of unknown content

Memory that was received from elsewhere is read like memory that was written here: whatever it
holds, a view of it faults nowhere and shows what the bytes stand for. Main statement:
`view_ofBytes`.

- **Faults** (`Access`): the same reads on a machine, where sums and products must be words, a
  divisor must not be 0, a number has one to eight bytes, and bytes must lie inside the memory.
  Enumerating a tail counts its steps too.
- **Room** (`Sound.structuralSize_le`): the offsets of a record are words.
- **Safety** (`RecordView.Safe`): on a machine the reads give what the view gives. A tail is
  enumerated in as many steps as the memory has bytes and one more, however many elements the size
  member tells of (`RecordView.elementsAccess_eq`).
- **Exactness** (`RecordView.Exact`): a field is present if its bytes are, and stands for them; a
  tail consists of the elements that are told of and present (`RecordView.length_elements`,
  `RecordView.getElem?_elements`), so of memory that was cut off it is a prefix.
-/

namespace MessageSchema.Memory

/-! ## Reads on a machine -/

/-- What an access on a machine may end with instead of a result. -/
inductive AccessFault where
  | overflow
  | divisionByZero
  | outOfBounds
  | badWidth
  | unfinished
deriving DecidableEq, Repr

/-- A computation with words and memory of a machine. -/
abbrev Access (α : Type) :=
  Except AccessFault α

namespace Access

/-- The sum of two words, if it is a word. -/
def add (a b : Nat) : Access Nat :=
  if a + b < sizeLimit then .ok (a + b) else .error .overflow

/-- The product of two words, if it is a word. -/
def mul (a b : Nat) : Access Nat :=
  if a * b < sizeLimit then .ok (a * b) else .error .overflow

/-- The quotient of two words. -/
def div (a b : Nat) : Access Nat :=
  if b = 0 then .error .divisionByZero else .ok (a / b)

/-- The memory from an offset on. -/
def behind (memory : Bytes) (offset : Nat) : Access Bytes :=
  if offset ≤ memory.length then .ok (memory.drop offset) else .error .outOfBounds

/-- The number in the first `size` bytes of a memory. -/
def number (order : ByteOrder) (memory : Bytes) (size : Nat) : Access Nat :=
  if size = 0 ∨ 8 < size then .error .badWidth
  else if memory.length < size then .error .outOfBounds
  else .ok (order.decode (memory.take size))

end Access

namespace Envelope

/-- The discriminant of a record, read on a machine. -/
def tagAccess (e : Envelope) : Access Int64 := do
  let memory ← Access.behind e.bytes e.layout.tagOffset
  let bits ← Access.number e.order memory e.layout.tag.size
  return Int64.ofInt ((Value.ofBits bits e.layout.tag).signedNumber?.getD 0)

/-- The size member of a record, read on a machine. -/
def sizeFieldAccess (e : Envelope) : Access Nat := do
  let memory ← Access.behind e.bytes e.layout.sizeOffset
  Access.number e.order memory e.layout.size.size

end Envelope

namespace RecordView

/-- The value of a scalar at an offset, read on a machine. -/
def readAccess (v : RecordView) (offset : Nat) (s : Scalar) : Access (Option Value) := do
  let stop ← Access.add offset s.size
  if stop ≤ v.envelope.bytes.length then
    let bits ← Access.number v.envelope.order (slice v.envelope.bytes offset s.size) s.size
    return some (.ofBits bits s)
  else return none

/-- The value of a fixed field, read on a machine. -/
def fieldAccess (v : RecordView) (name : String) : Access (Option Value) :=
  match v.record.field? name with
  | none => return none
  | some f => v.readAccess f.offset f.scalar

/-- The number of tail elements that the size member tells of, computed on a machine; a difference
of words stops at 0. -/
def tailCountAccess (v : RecordView) (meaning : SizeMeaning) : Access Nat :=
  match v.record.tail with
  | none => return 0
  | some tail => do
    let size ← v.envelope.sizeFieldAccess
    let beyond := size - v.record.structuralSize
    match meaning with
    | .bytes => Access.div beyond tail.scalar.size
    | .legacy => return beyond

/-- The elements of a tail from the one at `index` on, out of `count`, up to the first that is not
in memory. The enumeration must end within `steps` steps. -/
def elementsAccess (v : RecordView) (tail : MemberLayout) (count : Nat) :
    (steps index : Nat) → Access (List Value)
  | 0, _ => .error .unfinished
  | steps + 1, index =>
    if index < count then do
      let distance ← Access.mul index tail.scalar.size
      let offset ← Access.add tail.offset distance
      match ← v.readAccess offset tail.scalar with
      | none => return []
      | some value => return value :: (← v.elementsAccess tail count steps (index + 1))
    else return []

/-- The tail elements that are in memory, enumerated on a machine within `steps` steps. -/
def tailAccess (v : RecordView) (meaning : SizeMeaning) (steps : Nat) : Access (List Value) :=
  match v.record.tail with
  | none => return []
  | some tail => do
    let count ← v.tailCountAccess meaning
    v.elementsAccess tail count steps 0

end RecordView

namespace Access

theorem add_eq {a b : Nat} (h : a + b < sizeLimit) : add a b = .ok (a + b) :=
  if_pos h

theorem mul_eq {a b : Nat} (h : a * b < sizeLimit) : mul a b = .ok (a * b) :=
  if_pos h

theorem div_eq {a b : Nat} (h : 0 < b) : div a b = .ok (a / b) :=
  if_neg (Nat.ne_of_gt h)

theorem behind_eq {memory : Bytes} {offset : Nat} (h : offset ≤ memory.length) :
    behind memory offset = .ok (memory.drop offset) :=
  if_pos h

variable {m : DataModel} {s : Scalar}

/-- A scalar of a data model is read from any memory that is long enough. -/
theorem number_eq (order : ByteOrder) {memory : Bytes} (hs : m.Has s)
    (h : s.size ≤ memory.length) :
    number order memory s.size = .ok (order.decode (memory.take s.size)) := by
  have hpos := hs.size_pos
  have hle := hs.size_le
  rw [number, if_neg (by omega), if_neg (by omega)]

/-- A scalar that lies behind an offset. -/
theorem number_behind (order : ByteOrder) {memory : Bytes} {offset : Nat} (hs : m.Has s)
    (h : offset + s.size ≤ memory.length) :
    (behind memory offset >>= fun rest => number order rest s.size) =
      .ok (order.decode (slice memory offset s.size)) := by
  have hlength : s.size ≤ (memory.drop offset).length := by
    rw [List.length_drop]
    omega
  rw [behind_eq (Nat.le_trans (Nat.le_add_right _ _) h)]
  exact number_eq order hs hlength

end Access

/-! ## Room for the offsets of a record -/

/-- Members of scalars take at most 16 bytes each, with the padding in front of them. -/
theorem Placed.endOfMembers_le {m : DataModel} {header : Nat} {members : List MemberLayout}
    (h : Placed header members) (hs : ∀ f ∈ members, m.Has f.scalar) :
    endOfMembers header members ≤ header + 16 * members.length := by
  -- The gap in front of a member is bounded for every way to split the members there, so the
  -- induction is on the members in front of a split.
  suffices hsplit : ∀ before after, members = before ++ after →
      endOfMembers header before ≤ header + 16 * before.length by
    exact hsplit members [] (List.append_nil _).symm
  intro before
  induction before using List.reverseRecOn with
  | nil =>
    intro after _
    exact Nat.le_add_right _ _
  | append_singleton before f ih =>
    intro after hmembers
    rw [List.append_assoc, List.singleton_append] at hmembers
    have hbefore := ih (f :: after) hmembers
    have hgap := (h.gap before f after hmembers).2
    have hf : m.Has f.scalar := hs f (by simp [hmembers])
    have halign := hf.align_le
    have hsize := hf.size_le
    rw [endOfMembers_append_singleton, List.length_append, List.length_singleton]
    simp only [MemberLayout.region, Region.stop]
    omega

namespace RecordLayout.Sound

variable {m : DataModel} {r : RecordLayout}

/-- With fewer than 2⁵⁹ fields, the members of a record end where a size can count. -/
theorem endOfMembers_lt (h : r.Sound m) (hfields : r.fields.length < twoPow 59) :
    endOfMembers (EnvelopeLayout.ofModel m).headerSize r.fields + 16 < sizeLimit := by
  have hheader : (EnvelopeLayout.ofModel m).headerSize ≤ 16 := by cases m <;> decide
  have hend := h.placed.endOfMembers_le fun f hf => h.has (mem_members_of_fields hf)
  have hlimit : sizeLimit = 32 * twoPow 59 := rfl
  have hpos : 16 ≤ twoPow 59 := by decide
  omega

/-- The end of a fixed field is a word. -/
theorem stop_lt (h : r.Sound m) (hfields : r.fields.length < twoPow 59) {f : MemberLayout}
    (hf : f ∈ r.fields) : f.offset + f.scalar.size < sizeLimit := by
  have hend := h.endOfMembers_lt hfields
  have hstop : f.offset + f.scalar.size ≤ _ := h.placed.ends f hf
  omega

/-- The end of the first tail element is a word. -/
theorem tail_stop_lt (h : r.Sound m) (hfields : r.fields.length < twoPow 59) {t : MemberLayout}
    (ht : t ∈ r.tail) : t.offset + t.scalar.size < sizeLimit := by
  have hend := h.endOfMembers_lt hfields
  have hgap := (h.placed_members.gap r.fields t [] (members_of_tail ht)).2
  have hs := h.has (mem_members_of_tail ht)
  have hsize := hs.size_le
  have halign := hs.align_le
  omega

end RecordLayout.Sound

/-! ## What bytes stand for -/

/-- The bytes of a scalar at an offset lie inside the memory and are those of a number that stands
for the value. -/
def StandsAt (order : ByteOrder) (memory : Bytes) (offset : Nat) (s : Scalar) (w : Value) : Prop :=
  offset + s.size ≤ memory.length ∧ ∃ bits, bits < twoPow (8 * s.size) ∧
    slice memory offset s.size = order.encode s.size bits ∧ w = .ofBits bits s

section Read

variable {v : RecordView} {m : DataModel} {offset : Nat} {s : Scalar} {w : Value}

theorem length_slice {memory : Bytes} {size : Nat} (h : offset + size ≤ memory.length) :
    (slice memory offset size).length = size := by
  rw [slice, List.length_take, List.length_drop]
  omega

/-- Memories that agree from their beginning to the end of the shorter one have the same slices
there. -/
theorem slice_cutOff {memory bytes : Bytes} {size : Nat} (hbegins : bytes <+: memory)
    (hinside : offset + size ≤ bytes.length) :
    slice bytes offset size = slice memory offset size := by
  obtain ⟨rest, rfl⟩ := hbegins
  refine slice_congr fun i hi => ?_
  have hlt : i < bytes.length := Nat.lt_of_lt_of_le hi.2 hinside
  rw [List.getElem?_append_left hlt]

namespace RecordView

theorem read?_eq (v : RecordView) (offset : Nat) (s : Scalar) :
    v.read? offset s =
      if offset + s.size ≤ v.envelope.bytes.length then
        some (.ofBits (v.envelope.order.decode (slice v.envelope.bytes offset s.size)) s)
      else none := by
  rw [read?, readNumber?]
  split <;> rfl

/-- What is read is what the bytes stand for. -/
theorem read?_eq_some :
    v.read? offset s = some w ↔
      StandsAt v.envelope.order v.envelope.bytes offset s w := by
  rw [read?_eq]
  constructor
  · intro h
    split at h
    · rename_i hinside
      cases h
      have hlength := length_slice hinside
      have hlt := v.envelope.order.decode_lt (slice v.envelope.bytes offset s.size)
      have hbytes := v.envelope.order.encode_decode (slice v.envelope.bytes offset s.size)
      rw [hlength] at hlt hbytes
      exact ⟨hinside, _, hlt, hbytes.symm, rfl⟩
    · cases h
  · rintro ⟨hinside, bits, hlt, hbytes, rfl⟩
    rw [if_pos hinside, hbytes, v.envelope.order.decode_encode hlt]

/-- A scalar can be read where its bytes lie inside the memory. -/
theorem isSome_read? :
    (v.read? offset s).isSome ↔ offset + s.size ≤ v.envelope.bytes.length := by
  rw [read?_eq]
  split <;> simp_all

/-- On a machine a scalar is read like this if its end is a word. -/
theorem readAccess_eq (hs : m.Has s) (hstop : offset + s.size < sizeLimit) :
    v.readAccess offset s = .ok (v.read? offset s) := by
  rw [readAccess, Access.add_eq hstop, read?_eq]
  show (if offset + s.size ≤ v.envelope.bytes.length then _ else _) = _
  split
  · rename_i hinside
    have hlength := length_slice hinside
    have htake : (slice v.envelope.bytes offset s.size).take s.size =
        slice v.envelope.bytes offset s.size := List.take_of_length_le (Nat.le_of_eq hlength)
    rw [Access.number_eq v.envelope.order hs (Nat.le_of_eq hlength.symm), htake]
    rfl
  · rfl

end RecordView

end Read

namespace RecordView

variable {v : RecordView} {m : DataModel} {s : Scalar}

/-- There are as many elements as are asked for and present. -/
theorem length_elements (v : RecordView) (hpos : 0 < s.size) (offset count : Nat) :
    (v.elements s offset count).length =
      min count ((v.envelope.bytes.length - offset) / s.size) := by
  induction count generalizing offset with
  | zero => simp [elements]
  | succ count ih =>
    rw [elements, read?_eq]
    by_cases hinside : offset + s.size ≤ v.envelope.bytes.length
    · have hone : (v.envelope.bytes.length - offset) / s.size =
          (v.envelope.bytes.length - (offset + s.size)) / s.size + 1 := by
        rw [← Nat.sub_sub]
        exact Nat.div_eq_sub_div hpos (by omega)
      rw [if_pos hinside, hone]
      simp [ih, Nat.add_min_add_right]
    · have hnone : (v.envelope.bytes.length - offset) / s.size = 0 :=
        Nat.div_eq_of_lt (by omega)
      rw [if_neg hinside, hnone]
      simp

/-- The elements stand one behind the other. -/
theorem getElem?_elements {offset count i : Nat} {w : Value}
    (h : (v.elements s offset count)[i]? = some w) : v.read? (offset + i * s.size) s = some w := by
  induction count generalizing offset i with
  | zero => simp [elements] at h
  | succ count ih =>
    rw [elements] at h
    split at h
    · simp at h
    · rename_i u hu
      cases i with
      | zero =>
        simp only [List.getElem?_cons_zero, Option.some.injEq] at h
        rw [Nat.zero_mul, Nat.add_zero, hu, h]
      | succ i =>
        rw [List.getElem?_cons_succ] at h
        have hread := ih h
        rwa [Nat.add_assoc, ← Nat.add_comm (i * s.size), ← Nat.succ_mul] at hread

/-- Every step of the enumeration but the last has passed an element, and elements have bytes: so
the memory bounds the number of steps, and no offset is more than one element beyond it. -/
theorem elementsAccess_eq {t : MemberLayout} (count : Nat) {steps index : Nat} (hs : m.Has t.scalar)
    (hbytes : v.envelope.bytes.length < twoPow 63)
    (hstop : t.offset + t.scalar.size < sizeLimit)
    (hindex : index = 0 ∨ t.offset + index * t.scalar.size ≤ v.envelope.bytes.length)
    (hsteps : v.envelope.bytes.length < steps + index) :
    v.elementsAccess t count steps index =
      .ok (v.elements t.scalar (t.offset + index * t.scalar.size) (count - index)) := by
  have hsize := hs.size_le
  have hpos := hs.size_pos
  have hlimit : sizeLimit = 2 * twoPow 63 := rfl
  have hroom : 16 ≤ twoPow 63 := by decide
  induction steps generalizing index with
  | zero =>
    -- each step was an element of a byte at least, so the steps cannot run out
    have hle : index ≤ index * t.scalar.size := Nat.le_mul_of_pos_right index hpos
    omega
  | succ steps ih =>
    rw [elementsAccess]
    by_cases hlast : index < count
    · have hend : t.offset + index * t.scalar.size + t.scalar.size < sizeLimit := by
        rcases hindex with rfl | hindex
        · rwa [Nat.zero_mul, Nat.add_zero]
        · omega
      have hrest : count - index = (count - (index + 1)) + 1 := by omega
      rw [if_pos hlast, Access.mul_eq (by omega), hrest, elements]
      show (Access.add t.offset (index * t.scalar.size) >>= _) = _
      rw [Access.add_eq (by omega)]
      show (v.readAccess (t.offset + index * t.scalar.size) t.scalar >>= _) = _
      rw [readAccess_eq hs hend]
      -- an element that is not there ends the tail on both sides
      rcases hread : v.read? (t.offset + index * t.scalar.size) t.scalar with _ | w
      · rfl
      · have hinside := isSome_read?.mp (Option.isSome_of_eq_some hread)
        have hnext : t.offset + (index + 1) * t.scalar.size =
            t.offset + index * t.scalar.size + t.scalar.size := by
          rw [Nat.succ_mul, Nat.add_assoc]
        show (v.elementsAccess t count steps (index + 1) >>= fun rest => .ok (w :: rest)) = _
        rw [ih (.inr (hnext ▸ hinside)) (by omega), hnext]
        rfl
    · rw [if_neg hlast, Nat.sub_eq_zero_of_le (Nat.not_lt.mp hlast)]
      rfl

end RecordView

/-! ## Views of any memory -/

/-- On a machine every read gives what the view gives. -/
structure RecordView.Safe (v : RecordView) : Prop where
  field : ∀ name, v.fieldAccess name = .ok (v.field? name)
  tailCount : ∀ meaning, v.tailCountAccess meaning = .ok (v.tailCount meaning)
  tail : ∀ meaning, v.tailAccess meaning (v.envelope.bytes.length + 1) = .ok (v.tail meaning)

/-- What a view shows is what the bytes stand for, as far as there are bytes. -/
structure RecordView.Exact (v : RecordView) : Prop where
  isSome_field : ∀ name, (v.field? name).isSome ↔
    ∃ f ∈ v.record.fields, f.name = name ∧ f.offset + f.scalar.size ≤ v.envelope.bytes.length
  field : ∀ f ∈ v.record.fields, ∀ w, v.field? f.name = some w ↔
    StandsAt v.envelope.order v.envelope.bytes f.offset f.scalar w
  noTail : v.record.tail = none → ∀ meaning, v.tail meaning = []
  tailLength : ∀ t ∈ v.record.tail, ∀ meaning, (v.tail meaning).length =
    min (v.tailCount meaning) ((v.envelope.bytes.length - t.offset) / t.scalar.size)
  tailValues : ∀ t ∈ v.record.tail, ∀ (meaning : SizeMeaning) (i : Nat) (w : Value),
    (v.tail meaning)[i]? = some w →
      StandsAt v.envelope.order v.envelope.bytes (t.offset + i * t.scalar.size) t.scalar w
  /-- Memory that is cut off behind the envelope shows the first elements. -/
  cutOff : ∀ bytes, bytes <+: v.envelope.bytes → v.envelope.layout.headerSize ≤ bytes.length →
    ∀ meaning, (RecordView.mk { v.envelope with bytes } v.record).tail meaning <+: v.tail meaning

section Views

variable {m : DataModel} {e : Envelope} {r : RecordLayout}

/-- The discriminant and the size lie in the memory of every envelope. -/
theorem EnvelopeLayout.stop_le_headerSize (m : DataModel) :
    (EnvelopeLayout.ofModel m).tagOffset + (EnvelopeLayout.ofModel m).tag.size ≤
        (EnvelopeLayout.ofModel m).headerSize ∧
      (EnvelopeLayout.ofModel m).sizeOffset + (EnvelopeLayout.ofModel m).size.size ≤
        (EnvelopeLayout.ofModel m).headerSize := by
  cases m <;> decide

/-- The discriminant can be read on a machine. -/
theorem Envelope.tagAccess_eq (he : e.layout = .ofModel m)
    (hheader : e.layout.headerSize ≤ e.bytes.length) : e.tagAccess = .ok e.tag := by
  have hinside := (EnvelopeLayout.stop_le_headerSize m).1
  rw [← he] at hinside
  have hs : m.Has e.layout.tag := he ▸ m.has_tag
  have hnumber := Access.number_behind e.order hs (Nat.le_trans hinside hheader)
  rw [tagAccess, ← bind_assoc, hnumber]
  rfl

/-- So can the size. -/
theorem Envelope.sizeFieldAccess_eq (he : e.layout = .ofModel m)
    (hheader : e.layout.headerSize ≤ e.bytes.length) : e.sizeFieldAccess = .ok e.sizeField := by
  have hinside := (EnvelopeLayout.stop_le_headerSize m).2
  rw [← he] at hinside
  have hs : m.Has e.layout.size := he ▸ m.has_sizeType
  exact Access.number_behind e.order hs (Nat.le_trans hinside hheader)

namespace RecordView

/-- The count of the tail comes without overflow, in either meaning of the size. -/
theorem tailCountAccess_eq (he : e.layout = .ofModel m) (hr : r.Sound m)
    (hheader : e.layout.headerSize ≤ e.bytes.length) (meaning : SizeMeaning) :
    (RecordView.mk e r).tailCountAccess meaning = .ok ((RecordView.mk e r).tailCount meaning) := by
  rw [tailCountAccess, tailCount]
  dsimp only
  rcases ht : r.tail with _ | t
  · rfl
  · have hpos := (hr.has (RecordLayout.mem_members_of_tail ht)).size_pos
    dsimp only
    rw [Envelope.sizeFieldAccess_eq he hheader]
    cases meaning with
    | bytes => exact Access.div_eq hpos
    | legacy => rfl

/-- On a machine, every read of a sound record gives what the view gives. -/
theorem safe_of_sound (he : e.layout = .ofModel m) (hr : r.Sound m)
    (hheader : e.layout.headerSize ≤ e.bytes.length) (hbytes : e.bytes.length < twoPow 63)
    (hfields : r.fields.length < twoPow 59) : (RecordView.mk e r).Safe where
  field name := by
    rw [fieldAccess, field?]
    dsimp only
    rcases hf : r.field? name with _ | f
    · rfl
    · have hmem := List.mem_of_find?_eq_some hf
      exact readAccess_eq (hr.has (RecordLayout.mem_members_of_fields hmem))
        (hr.stop_lt hfields hmem)
  tailCount := tailCountAccess_eq he hr hheader
  tail meaning := by
    rw [tailAccess, tail]
    dsimp only
    rcases ht : r.tail with _ | t
    · rfl
    · have hs := hr.has (RecordLayout.mem_members_of_tail ht)
      have helements := elementsAccess_eq (v := ⟨e, r⟩)
        ((RecordView.mk e r).tailCount meaning) hs hbytes
        (hr.tail_stop_lt hfields ht) (.inl rfl) (Nat.lt_succ_self _)
      rw [Nat.zero_mul, Nat.add_zero, Nat.sub_zero] at helements
      dsimp only
      rw [tailCountAccess_eq he hr hheader]
      exact helements

/-- Bytes that are cut off behind a scalar do not change it. -/
theorem read?_cutOff {bytes : Bytes} (hbegins : bytes <+: e.bytes) {offset : Nat} {s : Scalar}
    (hinside : offset + s.size ≤ bytes.length) :
    (RecordView.mk { e with bytes } r).read? offset s = (RecordView.mk e r).read? offset s := by
  have hlength := hbegins.length_le
  rw [read?_eq, read?_eq, if_pos hinside, if_pos (Nat.le_trans hinside hlength)]
  dsimp only
  rw [slice_cutOff hbegins hinside]

/-- Of memory that is cut off, the first elements are read. -/
theorem elements_cutOff {bytes : Bytes} (hbegins : bytes <+: e.bytes) (s : Scalar)
    (offset count : Nat) :
    (RecordView.mk { e with bytes } r).elements s offset count <+:
      (RecordView.mk e r).elements s offset count := by
  induction count generalizing offset with
  | zero => exact List.prefix_refl _
  | succ count ih =>
    rw [elements, elements]
    rcases hread : (RecordView.mk { e with bytes } r).read? offset s with _ | w
    · exact List.nil_prefix
    · have hinside : offset + s.size ≤ bytes.length :=
        isSome_read?.mp (Option.isSome_of_eq_some hread)
      rw [← read?_cutOff hbegins hinside, hread]
      exact List.prefix_cons_inj w |>.mpr (ih (offset + s.size))

/-- The size member is read from the envelope, which is not cut off. -/
theorem tailCount_cutOff {bytes : Bytes} (he : e.layout = .ofModel m)
    (hbegins : bytes <+: e.bytes) (hheader : e.layout.headerSize ≤ bytes.length)
    (meaning : SizeMeaning) :
    (RecordView.mk { e with bytes } r).tailCount meaning =
      (RecordView.mk e r).tailCount meaning := by
  have hinside := (EnvelopeLayout.stop_le_headerSize m).2
  rw [← he] at hinside
  have hslice := slice_cutOff hbegins (Nat.le_trans hinside hheader)
  have hsize : (Envelope.mk bytes e.layout e.order).sizeField = e.sizeField := by
    rw [Envelope.sizeField, Envelope.sizeField, Envelope.numberAt, Envelope.numberAt, hslice]
  rw [tailCount, tailCount]
  dsimp only
  rw [hsize]

/-- The view of a sound record shows exactly what the bytes stand for. -/
theorem exact_of_sound (he : e.layout = .ofModel m) (hr : r.Sound m)
    (hnodup : (r.fields.map (·.name)).Nodup) : (RecordView.mk e r).Exact where
  isSome_field name := by
    rw [field?, Option.isSome_bind]
    constructor
    · intro h
      rcases hf : r.field? name with _ | f
      · simp [hf] at h
      · refine ⟨f, List.mem_of_find?_eq_some hf, by simpa using List.find?_some hf, ?_⟩
        exact isSome_read?.mp (by simpa [hf] using h)
    · rintro ⟨f, hf, rfl, hinside⟩
      have hread : ((RecordView.mk e r).read? f.offset f.scalar).isSome := isSome_read?.mpr hinside
      simpa [RecordLayout.field?_eq_some hnodup hf] using hread
  field f hf w := by
    rw [field?, RecordLayout.field?_eq_some hnodup hf]
    exact read?_eq_some
  noTail ht meaning := by
    rw [tail]
    dsimp only at ht ⊢
    rw [ht]
  tailLength t ht meaning := by
    have hpos := (hr.has (RecordLayout.mem_members_of_tail ht)).size_pos
    rw [tail]
    dsimp only at ht ⊢
    rw [Option.mem_def.mp ht]
    exact length_elements _ hpos _ _
  tailValues t ht meaning i w hi := by
    rw [tail] at hi
    dsimp only at ht hi
    rw [Option.mem_def.mp ht] at hi
    exact read?_eq_some.mp (getElem?_elements hi)
  cutOff bytes hbegins hheader meaning := by
    rw [tail, tail, tailCount_cutOff he hbegins hheader]
    dsimp only
    rcases r.tail with _ | t
    · exact List.prefix_refl _
    · exact elements_cutOff hbegins _ _ _

end RecordView

end Views

/-- Any memory that is long enough for an envelope is one. A view of it shows what the bytes stand
for. No read faults on a machine, as far as the memory and the list of fields are such that a
machine can hold them. -/
theorem view_ofBytes {policy : DiscriminantPolicy} {messages : List Message} {p : Protocol}
    {m : DataModel} {order : ByteOrder} {l : ProtocolLayout} {r : RecordLayout}
    (hp : Protocol.resolve policy messages = .ok p) (h : ProtocolLayout.compute p m order = .ok l)
    (hr : r ∈ l.records) (bytes : Bytes) (hheader : l.envelope.headerSize ≤ bytes.length) :
    ∃ env, Envelope.ofBytes? l bytes = some env ∧ env.bytes = bytes ∧ env.order = l.order ∧
      env.tagAccess = .ok env.tag ∧ env.sizeFieldAccess = .ok env.sizeField ∧
      ∀ view, env.downcast? r = some view →
        view.envelope = env ∧ view.record = r ∧ view.Exact ∧
          (bytes.length < twoPow 63 → r.fields.length < twoPow 59 → view.Safe) := by
  have hl := ProtocolLayout.envelope_of_compute h
  have hs := ProtocolLayout.sound_of_compute h hr
  have hnodup := ProtocolLayout.nodup_fieldNames hp h hr
  refine ⟨⟨bytes, l.envelope, l.order⟩, if_pos hheader, rfl, rfl,
    Envelope.tagAccess_eq hl hheader, Envelope.sizeFieldAccess_eq hl hheader, ?_⟩
  intro view hview
  rw [Envelope.downcast?] at hview
  split at hview
  · cases hview
    exact ⟨rfl, rfl, RecordView.exact_of_sound hl hs hnodup,
      fun hbytes hfields => RecordView.safe_of_sound hl hs hheader hbytes hfields⟩
  · cases hview

namespace Sample

/-- A record of 26 bytes that claims to have 2³² - 1, the last element cut off in the middle. -/
def claiming : Bytes :=
  [0, 0, 0, 3, 0xFF, 0xFF, 0xFF, 0xFF, 0xFF, 0xAA, 1, 0x2C, 7, 0xAA, 0xAA, 0xAA,
    0, 0, 0, 0, 0, 0, 0, 5, 0xAA, 0xAA]

end Sample

theorem view_claiming :
    Protocol.resolve .unique [Sample.message] = .ok Sample.protocol ∧
      ProtocolLayout.compute Sample.protocol .ilp32 .big = .ok Sample.layout ∧
      Sample.record ∈ Sample.layout.records ∧
      Sample.layout.envelope.headerSize ≤ Sample.claiming.length ∧
      ∃ env view, Envelope.ofBytes? Sample.layout Sample.claiming = some env ∧
        env.downcast? Sample.record = some view ∧ view.tailCount .legacy = 4294967279 ∧
        (view.tail .legacy).length = 1 ∧ view.Safe ∧ view.Exact := by
  have hresolve : Protocol.resolve .unique [Sample.message] = .ok Sample.protocol := rfl
  have hheader : Sample.layout.envelope.headerSize ≤ Sample.claiming.length := by decide
  obtain ⟨env, henv, -, -, -, -, hviews⟩ :=
    view_ofBytes hresolve Sample.compute_protocol Sample.record_mem Sample.claiming hheader
  cases henv
  obtain ⟨-, -, hexact, hsafe⟩ := hviews _ rfl
  exact ⟨hresolve, Sample.compute_protocol, Sample.record_mem, hheader, _, _, rfl, rfl, rfl,
    hexact.tailLength _ rfl .legacy, hsafe (by decide) (by decide), hexact⟩

end MessageSchema.Memory
