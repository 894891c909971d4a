import MessageSchema.Memory.Record
import MessageSchema.Proofs.Memory.Layout
import MessageSchema.Proofs.Memory.Value

/-!
# What a record is encoded to

- **Values** (`Encodes`, `encode_eq_ok`): what the encoding of a record consists of. For values that
  a record takes (`Accepts`), only the number of its bytes decides whether there is one
  (`Accepts.exists_encode`, `Accepts.encode_eq_error`).
- **Sizes** (`recordSize?_eq_some`): the number of bytes of a record.
- **The envelope** (`envelopeBits_eq`): the discriminant always has bits, and the size has if it
  fits the type of the size member.
-/

namespace MessageSchema.Memory

namespace RecordLayout

/-- What the values of a record are encoded to. -/
structure Encodes (r : RecordLayout) (fields tail : List Value) (meaning : SizeMeaning)
    (e : EncodedRecord) : Prop where
  length : fields.length = r.fields.length
  fieldBits : List.Forall₂ (fun x b => x.2.toBits? x.1.scalar = some b) (r.fields.zip fields)
    e.fields
  tailBits : ∀ t ∈ r.tail, List.Forall₂ (fun v b => v.toBits? t.scalar = some b) tail e.tail
  noTail : r.tail = none → tail = [] ∧ e.tail = []
  size : r.recordSize? tail.length = some e.size
  storedSize : e.storedSize = r.storedSize meaning e.size tail.length

variable {r : RecordLayout} {fields tail : List Value} {meaning : SizeMeaning} {e : EncodedRecord}

theorem encodeMember_eq_ok {f : MemberLayout} {v : Value} {b : Nat} :
    r.encodeMember f v = .ok b ↔ v.toBits? f.scalar = some b := by
  unfold encodeMember
  split <;> simp_all

theorem encodeTail_eq_ok {bits : List Nat} :
    r.encodeTail tail = .ok bits ↔
      (∀ t ∈ r.tail, List.Forall₂ (fun v b => v.toBits? t.scalar = some b) tail bits) ∧
        (r.tail = none → tail = [] ∧ bits = []) := by
  unfold encodeTail
  split
  · rename_i t ht
    simp [ht, mapM_eq_ok, encodeMember_eq_ok]
  · rename_i ht
    cases tail <;> simp [ht, eq_comm]

theorem length_of_encodeTail {bits : List Nat} (h : r.encodeTail tail = .ok bits) :
    bits.length = tail.length := by
  obtain ⟨htail, hnone⟩ := encodeTail_eq_ok.mp h
  rcases ht : r.tail with _ | t
  · obtain ⟨rfl, rfl⟩ := hnone ht
    rfl
  · exact (htail t ht).length_eq.symm

/-- What an encoding comes to, member by member. -/
theorem encode_eq_ok :
    r.encode fields tail meaning = .ok e ↔ r.Encodes fields tail meaning e := by
  unfold encode
  split
  · rename_i hlen
    exact ⟨nofun, fun h => absurd h.length hlen⟩
  · rename_i hlen
    simp only [bind_eq_ok, mapM_eq_ok, encodeMember_eq_ok]
    constructor
    · rintro ⟨fieldBits, hfields, tailBits, htail, h⟩
      -- the size follows from the number of encoded elements
      rw [length_of_encodeTail htail] at h
      split at h
      · cases h
      · rename_i size hsize
        cases h
        obtain ⟨htail, hnone⟩ := encodeTail_eq_ok.mp htail
        exact ⟨not_not.mp hlen, hfields, htail, hnone, hsize, rfl⟩
    · intro h
      have htail := encodeTail_eq_ok.mpr ⟨h.tailBits, h.noTail⟩
      refine ⟨e.fields, h.fieldBits, e.tail, htail, ?_⟩
      rw [length_of_encodeTail htail, h.size]
      dsimp only
      rw [← h.storedSize]
      rfl

theorem exists_getElem?_of_forall₂ {α β : Type} {R : α → β → Prop} {xs : List α} {ys : List β}
    {i : Nat} {x : α} (h : List.Forall₂ R xs ys) (hx : xs[i]? = some x) :
    ∃ y, ys[i]? = some y ∧ R x y := by
  obtain ⟨hi, rfl⟩ := List.getElem?_eq_some_iff.mp hx
  have hi' : i < ys.length := h.length_eq ▸ hi
  exact ⟨ys[i], List.getElem?_eq_getElem hi', h.get hi hi'⟩

namespace Encodes

theorem length_fields (h : r.Encodes fields tail meaning e) :
    e.fields.length = r.fields.length := by
  rw [← h.fieldBits.length_eq, List.length_zip, h.length, Nat.min_self]

theorem length_tail (h : r.Encodes fields tail meaning e) : e.tail.length = tail.length :=
  length_of_encodeTail (encodeTail_eq_ok.mpr ⟨h.tailBits, h.noTail⟩)

/-- Each field has the bits of its value. -/
theorem getElem?_fields (h : r.Encodes fields tail meaning e) {i : Nat} {f : MemberLayout}
    {v : Value} (hf : r.fields[i]? = some f) (hv : fields[i]? = some v) :
    ∃ bits, e.fields[i]? = some bits ∧ v.toBits? f.scalar = some bits := by
  have hx : (r.fields.zip fields)[i]? = some (f, v) := List.getElem?_zip_eq_some.mpr ⟨hf, hv⟩
  exact exists_getElem?_of_forall₂ h.fieldBits hx

/-- Each element of the tail has the bits of its value. -/
theorem getElem?_tail (h : r.Encodes fields tail meaning e) {t : MemberLayout} (ht : t ∈ r.tail)
    {i : Nat} {v : Value} (hv : tail[i]? = some v) :
    ∃ bits, e.tail[i]? = some bits ∧ v.toBits? t.scalar = some bits :=
  exists_getElem?_of_forall₂ (h.tailBits t ht) hv

end Encodes

/-! ## Values that a record takes -/

/-- Values that fit the members of a record. -/
structure Accepts (r : RecordLayout) (fields tail : List Value) : Prop where
  length : fields.length = r.fields.length
  fieldValues : ∀ x ∈ r.fields.zip fields, (x.2.toBits? x.1.scalar).isSome
  tailValues : ∀ t ∈ r.tail, ∀ v ∈ tail, (v.toBits? t.scalar).isSome
  noTail : r.tail = none → tail = []

theorem exists_forall₂_iff {α β : Type} {f : α → Option β} {xs : List α} :
    (∃ ys, List.Forall₂ (fun x y => f x = some y) xs ys) ↔ ∀ x ∈ xs, (f x).isSome := by
  induction xs with
  | nil => simp
  | cons x xs ih =>
    rw [List.forall_mem_cons, ← ih, Option.isSome_iff_exists]
    constructor
    · rintro ⟨_, _ | ⟨hy, hys⟩⟩
      exact ⟨⟨_, hy⟩, _, hys⟩
    · rintro ⟨⟨y, hy⟩, ys, hys⟩
      exact ⟨y :: ys, .cons hy hys⟩

/-- Only values that fit are encoded. -/
theorem Encodes.accepts (h : r.Encodes fields tail meaning e) : r.Accepts fields tail where
  length := h.length
  fieldValues := exists_forall₂_iff.mp ⟨_, h.fieldBits⟩
  tailValues t ht := exists_forall₂_iff.mp ⟨_, h.tailBits t ht⟩
  noTail ht := (h.noTail ht).1

theorem Accepts.exists_bits (h : r.Accepts fields tail) :
    ∃ fieldBits tailBits,
      (r.fields.zip fields).mapM (fun (f, v) => r.encodeMember f v) = .ok fieldBits ∧
        r.encodeTail tail = .ok tailBits := by
  obtain ⟨fieldBits, hfields⟩ := exists_forall₂_iff.mpr h.fieldValues
  refine ⟨fieldBits, ?_⟩
  have hmap := mapM_eq_ok.mpr (hfields.imp fun _ _ => (encodeMember_eq_ok (r := r)).mpr)
  rcases ht : r.tail with _ | t
  · exact ⟨[], hmap, encodeTail_eq_ok.mpr ⟨by simp [ht], fun _ => ⟨h.noTail ht, rfl⟩⟩⟩
  · obtain ⟨tailBits, htail⟩ := exists_forall₂_iff.mpr (h.tailValues t ht)
    refine ⟨tailBits, hmap, encodeTail_eq_ok.mpr ⟨fun u hu => ?_, by simp [ht]⟩⟩
    cases Option.mem_unique ht hu
    exact htail

/-- Values that fit are encoded if the bytes of the record can be counted. -/
theorem Accepts.exists_encode (h : r.Accepts fields tail) (meaning : SizeMeaning) {size : Nat}
    (hsize : r.recordSize? tail.length = some size) :
    ∃ fieldBits tailBits, r.encode fields tail meaning =
      .ok ⟨fieldBits, tailBits, size, r.storedSize meaning size tail.length⟩ := by
  obtain ⟨fieldBits, tailBits, hfields, htail⟩ := h.exists_bits
  refine ⟨fieldBits, tailBits, ?_⟩
  rw [← length_of_encodeTail htail] at hsize ⊢
  rw [encode, if_neg (not_not.mpr h.length), hfields, htail]
  simp only [bind, Except.bind, hsize]
  rfl

/-- Otherwise it is the size that is wrong. -/
theorem Accepts.encode_eq_error (h : r.Accepts fields tail) (meaning : SizeMeaning)
    (hsize : r.recordSize? tail.length = none) :
    r.encode fields tail meaning = .error .sizeOverflow := by
  obtain ⟨fieldBits, tailBits, hfields, htail⟩ := h.exists_bits
  rw [← length_of_encodeTail htail] at hsize
  rw [encode, if_neg (not_not.mpr h.length), hfields, htail]
  simp only [bind, Except.bind, hsize]

/-! ## Sizes -/

/-- A record with a tail is the larger by its elements, within what `size_t` can count. -/
theorem recordSize?_eq_some {count size : Nat} :
    r.recordSize? count = some size ↔
      (∀ t ∈ r.tail, count * t.scalar.size + r.structuralSize = size ∧ size < sizeLimit) ∧
        (r.tail = none → count = 0 ∧ r.structuralSize = size) := by
  unfold recordSize?
  split
  · rename_i t ht
    simp [ht]
    grind
  · rename_i ht
    simp [ht]

theorem structuralSize_le {count size : Nat} (h : r.recordSize? count = some size) :
    r.structuralSize ≤ size := by
  obtain ⟨htail, hnone⟩ := recordSize?_eq_some.mp h
  rcases ht : r.tail with _ | t
  · exact Nat.le_of_eq (hnone ht).2
  · have := (htail t ht).1
    omega

/-- The size that is stored counts elements only in the legacy meaning and for a tail. -/
theorem storedSize_eq (r : RecordLayout) (meaning : SizeMeaning) (size count : Nat) :
    r.storedSize meaning size count =
      if meaning = .legacy ∧ r.tail.isSome then r.structuralSize + count else size := by
  unfold storedSize
  cases meaning <;> cases r.tail <;> simp

/-- What the size member holds is never more than the number of bytes. -/
theorem Sound.storedSize_le {m : DataModel} (h : r.Sound m) {count size : Nat}
    (hsize : r.recordSize? count = some size) : r.storedSize meaning size count ≤ size := by
  unfold storedSize
  split
  · rename_i t ht
    have hstop := ((recordSize?_eq_some.mp hsize).1 t ht).1
    have hpos := (h.has (mem_members_of_tail ht)).size_pos
    have := Nat.le_mul_of_pos_right count hpos
    omega
  · exact Nat.le_refl _

end RecordLayout

/-! ## The numbers of the envelope -/

theorem exists_value_of_numberBits {type : IntegerType} {number : Int} {s : Scalar} {bits : Nat}
    (h : numberBits type number s = .ok bits) :
    ∃ v : Value, v.number? = some number ∧ v.toBits? s = some bits := by
  unfold numberBits at h
  split at h
  · rename_i hbits
    cases h
    obtain ⟨v, hv, hbits⟩ := Option.bind_eq_some_iff.mp hbits
    unfold Value.ofNumber? at hv
    split at hv
    · cases hv
      exact ⟨_, rfl, hbits⟩
    · cases hv
  · cases h

/-- The envelope holds the discriminant and the stored size. -/
theorem ProtocolLayout.envelopeBits_eq_ok {l : ProtocolLayout} {r : RecordLayout}
    {storedSize tagBits sizeBits : Nat} :
    l.envelopeBits r storedSize = .ok (tagBits, sizeBits) ↔
      numberBits ⟨true, .w64⟩ r.discriminant.toInt l.envelope.tag = .ok tagBits ∧
        numberBits ⟨false, .w64⟩ storedSize l.envelope.size = .ok sizeBits := by
  simp [envelopeBits, bind_eq_ok, pure, Except.pure]

theorem IntegerType.holds_natCast {n : Nat} (hn : n < twoPow 64) :
    IntegerType.Holds ⟨false, .w64⟩ n := by
  have hn : (n : Int) ≤ twoPow 64 - 1 := by omega
  exact ⟨by simp [IntegerType.least], hn⟩

theorem IntegerType.holds_toInt (d : Int64) : IntegerType.Holds ⟨true, .w64⟩ d.toInt :=
  ⟨d.le_toInt, Int.le_sub_one_of_lt d.toInt_lt⟩

/-- A size is stored just if the size member can count it. -/
theorem numberBits_size {n : Nat} {s : Scalar} (hs : s.kind = .unsigned) (hsize : s.size ≤ 8) :
    numberBits ⟨false, .w64⟩ n s =
      if n < twoPow (8 * s.size) then .ok n else .error .sizeOverflow := by
  rw [numberBits, Value.ofNumber?]
  by_cases hhold : IntegerType.Holds ⟨false, .w64⟩ n
  · rw [dif_pos hhold, Option.bind_some]
    by_cases hlt : n < twoPow (8 * s.size) <;>
      simp [Value.toBits?, hs, Value.unsignedNumber?, Value.number?, Option.filter, hlt]
  · have hle : twoPow (8 * s.size) ≤ twoPow 64 := twoPow_le (by omega)
    have hlarge : ¬ n < twoPow (8 * s.size) := fun hlt =>
      hhold (IntegerType.holds_natCast (Nat.lt_of_lt_of_le hlt hle))
    rw [dif_neg hhold, if_neg hlarge]
    rfl

/-- A discriminant that fits a C `int` has bits. -/
theorem exists_numberBits_tag {d : Int64} (hd : Protocol.fitsInt d = true) (m : DataModel) :
    ∃ bits, numberBits ⟨true, .w64⟩ d.toInt m.tag = .ok bits := by
  simp only [Protocol.fitsInt, Bool.and_eq_true, decide_eq_true_eq] at hd
  have hbits : (Value.integer ⟨true, .w64⟩ d.toInt (IntegerType.holds_toInt d)).toBits? m.tag =
      some (d.toInt % (twoPow 32 : Int)).toNat := by
    refine (Value.toBits?_signed rfl).mpr ⟨d.toInt, ⟨rfl, d.toInt_lt⟩, ?_, rfl⟩
    have hbound : (twoPow (8 * m.tag.size - 1) : Int) = 2147483648 := rfl
    omega
  refine ⟨(d.toInt % (twoPow 32 : Int)).toNat, ?_⟩
  rw [numberBits, Value.ofNumber?, dif_pos (IntegerType.holds_toInt d), Option.bind_some, hbits]

/-- Only the size can be too large for the envelope. -/
theorem ProtocolLayout.envelopeBits_eq {m : DataModel} {l : ProtocolLayout} {r : RecordLayout}
    (hl : l.envelope = .ofModel m) (hd : Protocol.fitsInt r.discriminant = true)
    (storedSize : Nat) :
    ∃ tagBits, l.envelopeBits r storedSize =
      if storedSize < twoPow (8 * l.envelope.size.size) then .ok (tagBits, storedSize)
      else .error .sizeOverflow := by
  obtain ⟨tagBits, htag⟩ := exists_numberBits_tag hd m
  refine ⟨tagBits, ?_⟩
  rw [envelopeBits, hl, EnvelopeLayout.tag_ofModel, EnvelopeLayout.size_ofModel, htag,
    numberBits_size rfl m.has_sizeType.size_le]
  split <;> rfl

end MessageSchema.Memory
