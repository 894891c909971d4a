import MessageSchema.Proofs.Memory.Record

/-!
# Values of floating-point members

Every number has a nearest floating-point one, so a member of such a type should have room for every
value. But an integer gets its encoding by way of a word with a sign (`Value.doubleBits?`), and one
that is too large for that is refused. Main statement: `sparesFloats_iff`, by which these integers,
and no other values, are refused, and a record is refused for such a member just if the first value
that does not fit is one of them.

- **Values** (`fitsFloats_iff`): the size of the member does not matter.
- **Records** (`encode_eq_valueOutOfRange`, `create_eq_valueOutOfRange`): a record is refused for
  the first value that does not fit its member; what comes after the encoding has other errors.
-/

namespace MessageSchema.Memory

namespace Value

/-- A value has an encoding as a `double`, and every floating-point scalar takes it. -/
structure FitsFloats (v : Value) : Prop where
  double : v.doubleBits?.isSome
  toBits : ∀ s : Scalar, s.kind = .float → s.size = 4 ∨ s.size = 8 → (v.toBits? s).isSome

variable {v : Value} {s : Scalar}

/-- A value has bits as a `float` just if it has them as a `double`. -/
theorem isSome_toBits?_float (hkind : s.kind = .float) (hsize : s.size = 4 ∨ s.size = 8) :
    (v.toBits? s).isSome = v.doubleBits?.isSome := by
  unfold toBits?
  rcases hsize with hsize | hsize <;> simp [hkind, hsize]

/-- Only integers of 2⁶³ and more have no bits as a `double`. -/
theorem isSome_doubleBits? :
    v.doubleBits?.isSome ↔ ∀ n : Int, v.number? = some n → n < twoPow 63 := by
  cases v <;> simp [doubleBits?, signedNumber?, number?]

/-- A floating-point scalar refuses just the integers that are too large for a word with a sign. -/
theorem toBits?_float_eq_none {m : DataModel} (hs : m.Has s) (hkind : s.kind = .float) :
    v.toBits? s = none ↔ ∃ n : Int, v.number? = some n ∧ twoPow 63 ≤ n := by
  rw [← Option.not_isSome_iff_eq_none, isSome_toBits?_float hkind (hs.float hkind),
    isSome_doubleBits?]
  simp

/-- All values but integers that are too large for a word with a sign fit. -/
theorem fitsFloats_iff : v.FitsFloats ↔ ∀ n : Int, v.number? = some n → n < twoPow 63 := by
  rw [← isSome_doubleBits?]
  constructor
  · exact FitsFloats.double
  · intro h
    exact ⟨h, fun s hkind hsize => isSome_toBits?_float hkind hsize ▸ h⟩

end Value

namespace RecordLayout

/-- The values of a record with their members, in the order in which they are encoded. -/
def assignments (r : RecordLayout) (fields tail : List Value) : List (MemberLayout × Value) :=
  r.fields.zip fields ++ r.tail.toList.flatMap fun t => tail.map fun v => (t, v)

variable {r : RecordLayout} {fields tail : List Value} {meaning : SizeMeaning} {f : MemberLayout}
  {v : Value} {message member type : String}

theorem mem_members_of_assignments (h : (f, v) ∈ r.assignments fields tail) : f ∈ r.members := by
  rcases List.mem_append.mp h with h | h
  · exact mem_members_of_fields (List.of_mem_zip h).1
  · simp only [List.mem_flatMap, List.mem_map, Option.mem_toList] at h
    obtain ⟨t, ht, u, -, h⟩ := h
    cases h
    exact mem_members_of_tail ht

/-- A value is refused for the member that has no bits for it. -/
theorem encodeMember_eq_error :
    r.encodeMember f v = .error (.valueOutOfRange message member type) ↔
      v.toBits? f.scalar = none ∧ r.name = message ∧ f.name = member ∧ f.type = type := by
  unfold encodeMember
  split <;> simp_all

/-- Without a tail no value is too large for it. -/
theorem encodeTail_eq_error :
    r.encodeTail tail = .error (.valueOutOfRange message member type) ↔
      (r.tail.toList.flatMap fun t => tail.map fun v => (t, v)).mapM
          (fun x => r.encodeMember x.1 x.2) = .error (.valueOutOfRange message member type) := by
  unfold encodeTail
  rcases r.tail with _ | t
  · cases tail <;> simp [pure, Except.pure]
  · simp [List.mapM_map, Function.comp_def]

/-- A record is refused for the first value that does not fit its member. -/
theorem encode_eq_valueOutOfRange :
    r.encode fields tail meaning = .error (.valueOutOfRange message member type) ↔
      fields.length = r.fields.length ∧ ∃ before f v after,
        r.assignments fields tail = before ++ (f, v) :: after ∧
        (∀ x ∈ before, (x.2.toBits? x.1.scalar).isSome) ∧ v.toBits? f.scalar = none ∧
        r.name = message ∧ f.name = member ∧ f.type = type := by
  have hencode : r.encode fields tail meaning = .error (.valueOutOfRange message member type) ↔
      fields.length = r.fields.length ∧
        (r.assignments fields tail).mapM (fun x => r.encodeMember x.1 x.2) =
          .error (.valueOutOfRange message member type) := by
    unfold encode assignments
    by_cases hlength : fields.length = r.fields.length
    · rw [if_neg (not_not.mpr hlength), List.mapM_append]
      simp only [bind_eq_error, encodeTail_eq_error, hlength, true_and]
      refine or_congr_right (exists_congr fun fieldBits => and_congr_right fun _ => ?_)
      constructor
      · rintro (htail | ⟨tailBits, -, hsize⟩)
        · exact .inl htail
        -- With bits for all values only the size of the record can be wrong.
        · split at hsize <;> cases hsize
      · rintro (htail | ⟨_, -, hpure⟩)
        · exact .inl htail
        · cases hpure
    · simp [hlength]
  rw [hencode, mapM_eq_error]
  simp only [encodeMember_eq_ok, encodeMember_eq_error, Prod.exists, Option.isSome_iff_exists]

end RecordLayout

namespace ProtocolLayout

variable {m : DataModel} {l : ProtocolLayout} {r : RecordLayout} {fields tail : List Value}
  {meaning : SizeMeaning} {allocator : Allocator} {message member type : String}

/-- The envelope has bits unless a number is too large for it. -/
theorem envelopeBits_eq_error {storedSize : Nat} {error : RecordError}
    (h : l.envelopeBits r storedSize = .error error) : error = .sizeOverflow := by
  have hnumber : ∀ {type : IntegerType} {number : Int} {s : Scalar},
      numberBits type number s = .error error → error = .sizeOverflow := by
    intro type number s hbits
    unfold numberBits at hbits
    split at hbits <;> cases hbits
    rfl
  rcases bind_eq_error.mp h with htag | ⟨_, -, h⟩
  · exact hnumber htag
  rcases bind_eq_error.mp h with hsize | ⟨_, -, h⟩
  · exact hnumber hsize
  · cases h

/-- Once its values are encoded, no value is to blame for the failure of a record. -/
theorem finish_ne_valueOutOfRange (l : ProtocolLayout) (r : RecordLayout) (e : EncodedRecord)
    (answer : AllocationAnswer) :
    l.finish r e answer ≠ .error (.valueOutOfRange message member type) := by
  intro h
  rcases bind_eq_error.mp h with hmemory | ⟨memory, -, h⟩
  · unfold memoryOf at hmemory
    split at hmemory <;> cases hmemory
  rcases bind_eq_error.mp h with hwrite | ⟨_, -, h⟩
  · rw [InPlace.memoryAfter, outcome_writeRecord] at hwrite
    by_cases hshort : memory.length < e.size
    · rw [if_pos hshort] at hwrite
      cases hwrite
    · rw [if_neg hshort] at hwrite
      rcases hbits : l.envelopeBits r e.storedSize with error | bits
      · rw [hbits] at hwrite
        cases hwrite
        cases envelopeBits_eq_error hbits
      · rw [hbits] at hwrite
        cases hwrite
  · cases h

/-- A value is to blame just if it is for the failure of the encoding, whatever the memory. -/
theorem create_eq_valueOutOfRange :
    l.create allocator r fields tail meaning = .error (.valueOutOfRange message member type) ↔
      r.encode fields tail meaning = .error (.valueOutOfRange message member type) := by
  rw [create_eq, bind_eq_error]
  constructor
  · rintro (h | ⟨e, -, h⟩)
    · exact h
    · exact absurd h (l.finish_ne_valueOutOfRange r e _)
  · exact .inl

end ProtocolLayout

/-- No value for a floating-point member is said not to fit it. -/
def SparesFloats (l : ProtocolLayout) (allocator : Allocator) (r : RecordLayout)
    (fields tail : List Value) (meaning : SizeMeaning) : Prop :=
  ∀ f ∈ r.members, f.scalar.kind = .float →
    l.create allocator r fields tail meaning ≠ .error (.valueOutOfRange r.name f.name f.type)

/-- The first value that does not fit is an integer for a floating-point member, and too large for a
word with a sign. -/
def BlamesNumber (r : RecordLayout) (fields tail : List Value) : Prop :=
  fields.length = r.fields.length ∧ ∃ before f v after, ∃ n : Int,
    r.assignments fields tail = before ++ (f, v) :: after ∧
    (∀ x ∈ before, (x.2.toBits? x.1.scalar).isSome) ∧
    f.scalar.kind = .float ∧ v.number? = some n ∧ twoPow 63 ≤ n

/-- Floating-point members take all values but integers that are too large for a word with a sign,
and a record is refused for such a member just if one of these is the first value that does not
fit. -/
theorem sparesFloats_iff {p : Protocol} {m : DataModel} {order : ByteOrder} {l : ProtocolLayout}
    {r : RecordLayout} (h : ProtocolLayout.compute p m order = .ok l) (hr : r ∈ l.records)
    (fields tail : List Value) (meaning : SizeMeaning) (allocator : Allocator) :
    (∀ v : Value, v.FitsFloats ↔ ∀ n : Int, v.number? = some n → n < twoPow 63) ∧
      (SparesFloats l allocator r fields tail meaning ↔ ¬ BlamesNumber r fields tail) := by
  have hs := ProtocolLayout.sound_of_compute h hr
  refine ⟨fun _ => Value.fitsFloats_iff, ?_⟩
  unfold SparesFloats BlamesNumber
  constructor
  · rintro hfits ⟨hlength, before, f, v, after, n, hsplit, hbefore, hkind, hn, hlarge⟩
    have hmem : (f, v) ∈ r.assignments fields tail := by rw [hsplit]; simp
    have hf := RecordLayout.mem_members_of_assignments hmem
    have hnone := (Value.toBits?_float_eq_none (hs.has hf) hkind).mpr ⟨n, hn, hlarge⟩
    refine hfits f hf hkind (ProtocolLayout.create_eq_valueOutOfRange.mpr ?_)
    exact RecordLayout.encode_eq_valueOutOfRange.mpr
      ⟨hlength, before, f, v, after, hsplit, hbefore, hnone, rfl, rfl, rfl⟩
  · intro hblames f hf hkind hcreate
    obtain ⟨hlength, before, g, v, after, hsplit, hbefore, hnone, -, -, htype⟩ :=
      RecordLayout.encode_eq_valueOutOfRange.mp
        (ProtocolLayout.create_eq_valueOutOfRange.mp hcreate)
    -- The member to blame has the type that the error names, so it is a floating-point one, too.
    have hmem : (g, v) ∈ r.assignments fields tail := by rw [hsplit]; simp
    have hg := RecordLayout.mem_members_of_assignments hmem
    have hscalar : g.scalar = f.scalar := by
      have hsame := hs.scalars g hg
      rw [htype, hs.scalars f hf] at hsame
      exact (Option.some.inj hsame).symm
    obtain ⟨n, hn, hlarge⟩ :=
      (Value.toBits?_float_eq_none (hs.has hg) (hscalar ▸ hkind)).mp hnone
    exact hblames ⟨hlength, before, g, v, after, n, hsplit, hbefore, hscalar ▸ hkind, hn, hlarge⟩

namespace Sample

/-- A message with floating-point members only. -/
def mean : Message where
  name := "MEAN"
  shortName := "mean"
  explicitValue := some 1
  fields := [.ofPair "double" "value"]
  tail := some ⟨"float", "samples"⟩

/-- Its record. -/
def meanRecord : RecordLayout where
  name := "MEAN"
  shortName := "mean"
  discriminant := 1
  fields := [⟨"value", "double", ⟨.float, 8, 8⟩, 16⟩]
  tail := some ⟨"samples", "float", ⟨.float, 4, 4⟩, 24⟩
  structuralSize := 24
  align := 8

/-- The layout of the protocol with this message only. -/
def meanLayout : ProtocolLayout :=
  ⟨.lp64, .little, .ofModel .lp64, [meanRecord]⟩

theorem compute_mean : ProtocolLayout.compute ⟨[⟨mean, 1⟩]⟩ .lp64 .little = .ok meanLayout :=
  rfl

/-- The least integer that has no word with a sign. -/
def largeInteger : Value :=
  .integer ⟨false, .w64⟩ 9223372036854775808 (by decide)

end Sample

theorem sparesFloats_mean :
    ProtocolLayout.compute ⟨[⟨Sample.mean, 1⟩]⟩ .lp64 .little = .ok Sample.meanLayout ∧
      Sample.meanRecord ∈ Sample.meanLayout.records ∧
      (Value.bool true).FitsFloats ∧
      SparesFloats Sample.meanLayout zeroAllocator Sample.meanRecord [.bool true]
        [.integer ⟨false, .w64⟩ 9223372036854775807 (by decide)] .bytes := by
  have hmem : Sample.meanRecord ∈ Sample.meanLayout.records := List.mem_singleton_self _
  obtain ⟨hvalue, hrecord⟩ := sparesFloats_iff Sample.compute_mean hmem [.bool true]
    [.integer ⟨false, .w64⟩ 9223372036854775807 (by decide)] .bytes zeroAllocator
  refine ⟨Sample.compute_mean, hmem, (hvalue _).mpr ?_, hrecord.mpr ?_⟩
  · intro n hn
    cases hn
    decide
  · rintro ⟨-, before, f, v, after, n, hsplit, -, -, hn, hlarge⟩
    have hmem : (f, v) ∈ before ++ (f, v) :: after := by simp
    rw [← hsplit] at hmem
    simp [RecordLayout.assignments, Sample.meanRecord] at hmem
    rcases hmem with ⟨-, rfl⟩ | ⟨-, rfl⟩ <;> cases hn <;> exact absurd hlarge (by decide)

/-- The least integer that is too large is refused for a field and for a tail element, although an
unsigned member takes it, and it has an encoding that stands for just this number. -/
theorem not_fitsFloats_mean :
    ProtocolLayout.compute ⟨[⟨Sample.mean, 1⟩]⟩ .lp64 .little = .ok Sample.meanLayout ∧
      Sample.largeInteger.toBits? Sample.meanLayout.envelope.size = some 9223372036854775808 ∧
      BinaryFormat.double.decode (BinaryFormat.double.ofInt 9223372036854775808) =
        .finite false (twoPow 52) 11 ∧
      ¬ Sample.largeInteger.FitsFloats ∧
      Sample.meanLayout.create zeroAllocator Sample.meanRecord [Sample.largeInteger] [] .bytes =
        .error (.valueOutOfRange "MEAN" "value" "double") ∧
      Sample.meanLayout.create zeroAllocator Sample.meanRecord [.bool true]
        [.bool false, Sample.largeInteger] .bytes =
        .error (.valueOutOfRange "MEAN" "samples" "float") := by
  refine ⟨Sample.compute_mean, by decide, by decide, fun h => ?_, rfl, rfl⟩
  exact absurd (Value.fitsFloats_iff.mp h _ rfl) (by decide)

end MessageSchema.Memory
