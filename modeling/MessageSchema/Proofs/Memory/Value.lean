import MessageSchema.Memory.Value
import MessageSchema.Proofs.Memory.Scalar

/-!
# The bits of values

- **Room** (`toBits?_lt`): the bits of a value in a scalar fit the bytes of that scalar, for a
  floating-point number because every encoding fits its format (`BinaryFormat.encode_lt`).
- **Numbers** (`number?_ofBits`): the bits of a number in an integer scalar stand for that number
  again, whatever the type of the value was.
-/

namespace MessageSchema.Memory

namespace BinaryFormat

/-- The number of bits of an encoding. -/
def width (f : BinaryFormat) : Nat :=
  f.fractionBits + f.exponentBits + 1

variable {f : BinaryFormat}

/-- An encoding without its sign, which is at most that of infinity, has room for a fraction. -/
theorem infinityBits_add (f : BinaryFormat) :
    f.infinityBits + twoPow f.fractionBits = twoPow (f.fractionBits + f.exponentBits) := by
  have h : twoPow f.exponentBits - 1 + 1 = twoPow f.exponentBits :=
    Nat.sub_add_cancel (twoPow_pos f.exponentBits)
  calc f.infinityBits + twoPow f.fractionBits
      = (twoPow f.exponentBits - 1 + 1) * twoPow f.fractionBits := by
        rw [infinityBits, Nat.add_mul, Nat.one_mul]
    _ = twoPow (f.fractionBits + f.exponentBits) := by rw [h, twoPow_add, Nat.mul_comm]

theorem withSign_lt {bits : Nat} (negative : Bool)
    (h : bits < twoPow (f.fractionBits + f.exponentBits)) :
    f.withSign negative bits < twoPow f.width := by
  rw [width, twoPow_succ, withSign]
  split <;> omega

/-- Rounding stays within the format. -/
theorem round_lt (f : BinaryFormat) (negative : Bool) (significand : Nat) (exponent : Int) :
    f.round negative significand exponent < twoPow f.width := by
  have hfraction := twoPow_pos f.fractionBits
  have hroom := f.infinityBits_add
  unfold round
  split
  · exact withSign_lt negative (twoPow_pos _)
  · exact withSign_lt negative (Nat.lt_of_le_of_lt (Nat.min_le_right _ _) (by omega))

/-- A datum has bits of the format that it is encoded to. -/
theorem encode_lt (f source : BinaryFormat) (h : 0 < f.fractionBits) (d : Datum) :
    f.encode source d < twoPow f.width := by
  have hfraction := twoPow_pos f.fractionBits
  have hroom := f.infinityBits_add
  cases d with
  | finite negative significand exponent => exact f.round_lt negative significand exponent
  | infinite negative => exact withSign_lt negative (by omega)
  | nan negative fraction =>
    refine withSign_lt negative ?_
    -- The quiet bit and the bits below it make up the fraction.
    have hquiet : twoPow (f.fractionBits - 1) * 2 = twoPow f.fractionBits := by
      rw [← twoPow_succ, Nat.sub_add_cancel h]
    have hscaled := Nat.mod_lt (fraction * twoPow f.fractionBits / twoPow source.fractionBits)
      (twoPow_pos (f.fractionBits - 1))
    omega

end BinaryFormat

namespace Value

variable {m : DataModel} {s : Scalar} {v : Value} {b : Nat}

theorem doubleBits?_lt (h : v.doubleBits? = some b) : b < twoPow 64 := by
  cases v with
  | single bits =>
    cases h
    exact BinaryFormat.encode_lt .double .single (by decide) _
  | double bits =>
    cases h
    exact bits.toNat_lt
  | integer type number holds =>
    obtain ⟨n, -, rfl⟩ := Option.map_eq_some_iff.mp h
    exact BinaryFormat.round_lt .double _ _ _
  | bool value =>
    obtain ⟨n, -, rfl⟩ := Option.map_eq_some_iff.mp h
    exact BinaryFormat.round_lt .double _ _ _

/-! ## When a value has bits -/

/-- The signed number of a value is its number, if that is below 2⁶³. -/
theorem signedNumber?_eq_some {n : Int} :
    v.signedNumber? = some n ↔ v.number? = some n ∧ n < twoPow 63 := by
  simp [signedNumber?, Option.filter_eq_some_iff]

theorem unsignedNumber?_eq_some :
    v.unsignedNumber? = some b ↔ ∃ n : Int, v.number? = some n ∧ 0 ≤ n ∧ n.toNat = b := by
  simp [unsignedNumber?, Option.filter_eq_some_iff, and_assoc]

/-- A signed scalar takes the numbers of its width, as residues. -/
theorem toBits?_signed (hs : s.kind = .signed) :
    v.toBits? s = some b ↔ ∃ n : Int, (v.number? = some n ∧ n < twoPow 63) ∧
      (-(twoPow (8 * s.size - 1) : Int) ≤ n ∧ n < twoPow (8 * s.size - 1)) ∧
      (n % (twoPow (8 * s.size) : Int)).toNat = b := by
  simp [toBits?, hs, Option.filter_eq_some_iff, signedNumber?_eq_some, and_assoc]

/-- An unsigned scalar takes the numbers of its width, as they are. -/
theorem toBits?_unsigned (hs : s.kind = .unsigned ∨ s.kind = .pointer) :
    v.toBits? s = some b ↔ (∃ n : Int, v.number? = some n ∧ 0 ≤ n ∧ n.toNat = b) ∧
      b < twoPow (8 * s.size) := by
  rcases hs with hs | hs <;>
    simp [toBits?, hs, Option.filter_eq_some_iff, unsignedNumber?_eq_some]

/-- A C `bool` takes the numbers 0 and 1. -/
theorem toBits?_bool (hs : s.kind = .bool) :
    v.toBits? s = some b ↔ (∃ n : Int, v.number? = some n ∧ 0 ≤ n ∧ n.toNat = b) ∧ b ≤ 1 := by
  simp [toBits?, hs, Option.filter_eq_some_iff, unsignedNumber?_eq_some]

/-- The bits of a value fit the bytes of the scalar. -/
theorem toBits?_lt (hs : m.Has s) (h : v.toBits? s = some b) : b < twoPow (8 * s.size) := by
  cases hkind : s.kind with
  | signed =>
    obtain ⟨n, -, -, rfl⟩ := (toBits?_signed hkind).mp h
    have hpos := twoPow_pos (8 * s.size)
    have := Int.emod_lt_of_pos n (b := twoPow (8 * s.size)) (by omega)
    have := Int.emod_nonneg n (b := twoPow (8 * s.size)) (by omega)
    omega
  | unsigned => exact ((toBits?_unsigned (.inl hkind)).mp h).2
  | pointer => exact ((toBits?_unsigned (.inr hkind)).mp h).2
  | bool =>
    have hb := ((toBits?_bool hkind).mp h).2
    rw [hs.bool hkind]
    exact Nat.lt_of_le_of_lt hb (by decide)
  | float =>
    rcases hs.float hkind with hsize | hsize
    · simp only [toBits?, hkind, hsize] at h ⊢
      obtain ⟨d, -, rfl⟩ := Option.map_eq_some_iff.mp h
      exact BinaryFormat.encode_lt .single .double (by decide) _
    · simp only [toBits?, hkind, hsize] at h ⊢
      exact doubleBits?_lt h

/-! ## The number that bits stand for -/

theorem bits_widthOfSize (hs : m.Has s) : (widthOfSize s.size).bits = 8 * s.size := by
  rcases hs.size with hsize | hsize | hsize | hsize <;> rw [hsize] <;> rfl

/-- A number in the range of a width is the one that its residue stands for with a sign. -/
theorem wrap_emod {t : IntegerType} {n : Int} (ht : t.signed = true)
    (hn : -(twoPow (t.width.bits - 1) : Int) ≤ n ∧ n < twoPow (t.width.bits - 1)) :
    t.wrap (n % (twoPow t.width.bits : Int)).toNat = n := by
  have hpos : 0 < t.width.bits := by cases t.width <;> decide
  have hhalf : twoPow (t.width.bits - 1) * 2 = twoPow t.width.bits := by
    rw [← twoPow_succ, Nat.sub_add_cancel hpos]
  have hne : (twoPow t.width.bits : Int) ≠ 0 := by
    have := twoPow_pos t.width.bits
    omega
  have hmod := Int.emod_nonneg n hne
  rw [IntegerType.wrap, if_pos ht, Int.toNat_of_nonneg hmod, Int.emod_bmod]
  exact Int.bmod_eq_of_le_mul_two (by omega) (by omega)

theorem number?_ofLowBits (t : IntegerType) (b : Nat) :
    (ofLowBits t b).number? = some (t.wrap b) :=
  rfl

theorem wrap_of_lt {t : IntegerType} (ht : t.signed = false) (hb : b < twoPow t.width.bits) :
    t.wrap b = b := by
  rw [IntegerType.wrap, ht, if_neg Bool.false_ne_true]
  exact_mod_cast Nat.mod_eq_of_lt hb

/-- The bits of a number stand for that number again. -/
theorem number?_ofBits (hs : m.Has s) (hkind : s.kind ≠ .float) (h : v.toBits? s = some b) :
    (ofBits b s).number? = v.number? := by
  have hwidth := bits_widthOfSize hs
  cases hk : s.kind with
  | signed =>
    obtain ⟨n, ⟨hn, -⟩, hrange, rfl⟩ := (toBits?_signed hk).mp h
    rw [← hwidth] at hrange ⊢
    simp only [ofBits, hk]
    rw [number?_ofLowBits, hn, wrap_emod (t := ⟨true, widthOfSize s.size⟩) rfl hrange]
  | unsigned =>
    obtain ⟨⟨n, hn, hn0, rfl⟩, hb⟩ := (toBits?_unsigned (.inl hk)).mp h
    simp only [ofBits, hk]
    rw [number?_ofLowBits, hn, wrap_of_lt rfl (by rwa [hwidth]), Int.toNat_of_nonneg hn0]
  | pointer =>
    obtain ⟨⟨n, hn, hn0, rfl⟩, hb⟩ := (toBits?_unsigned (.inr hk)).mp h
    simp only [ofBits, hk]
    rw [number?_ofLowBits, hn, wrap_of_lt rfl (by rwa [hwidth]), Int.toNat_of_nonneg hn0]
  | bool =>
    obtain ⟨⟨n, hn, hn0, rfl⟩, hb⟩ := (toBits?_bool hk).mp h
    have hcases : n = 0 ∨ n = 1 := by omega
    rcases hcases with rfl | rfl <;> rw [hn] <;> simp [ofBits, hk, number?]
  | float => exact absurd hk hkind

end Value

end MessageSchema.Memory
