import Mathlib.Data.Option.Basic
import MessageSchema.Proofs.Memory.Value

/-!
# Numbers in scalars

Main statement: `encodesNumbers_of_offers`. For every scalar that a data model gives and that is no
floating-point one, a value has bits just if its number has a place in the scalar (`Scalar.Holds`),
whatever the type of the value; the bits are the residue of that number, and stand for it again. All
bits that the scalar has room for are those of the value they stand for.

The same bits come out of the arithmetic of a machine with words of 64 bits: sign extension and
conversions that are tried (`Value.signedWord?`, `Value.unsignedWord?`), bounds by shifts of the
extreme words (`toInt_least`, `toInt_greatest`), masks (`lowMask`) and truncation
(`IntegerType.ofWord`).
-/

namespace MessageSchema.Memory

namespace DataModel

/-- The scalars that a data model gives: those of C types, and those of the envelope. -/
def Offers (m : DataModel) (s : Scalar) : Prop :=
  (∃ type, m.scalar? type = some s) ∨ s = m.tag ∨ s = m.sizeType

theorem Offers.has {m : DataModel} {s : Scalar} (h : m.Offers s) : m.Has s := by
  rcases h with ⟨_, h⟩ | rfl | rfl
  · exact has_of_scalar? h
  · exact m.has_tag
  · exact m.has_sizeType

end DataModel

namespace Scalar

/-- The number of bits of a scalar. -/
def width (s : Scalar) : Nat :=
  8 * s.size

/-- Whether a number has a place in a scalar. -/
def Holds (s : Scalar) (n : Int) : Prop :=
  match s.kind with
  | .signed => -(twoPow (s.width - 1) : Int) ≤ n ∧ n < twoPow (s.width - 1)
  | .unsigned | .pointer => 0 ≤ n ∧ n < twoPow s.width
  | .bool => n = 0 ∨ n = 1
  | .float => False

end Scalar

/-! ## Words of a machine -/

/-- The word whose low bits are set. No word is shifted by all its bits. -/
def lowMask (bits : Nat) : UInt64 :=
  if 64 ≤ bits then ~~~0 else (1 <<< UInt64.ofNat bits) - 1

/-- The number of the type in the low bits of a word. -/
def IntegerType.ofWord (t : IntegerType) (w : UInt64) : Int :=
  match t.signed, t.width with
  | true, .w8 => w.toUInt8.toInt8.toInt
  | true, .w16 => w.toUInt16.toInt16.toInt
  | true, .w32 => w.toUInt32.toInt32.toInt
  | true, .w64 => w.toInt64.toInt
  | false, .w8 => w.toUInt8.toNat
  | false, .w16 => w.toUInt16.toNat
  | false, .w32 => w.toUInt32.toNat
  | false, .w64 => w.toNat

/-- The number that a word stands for in a scalar. -/
def Scalar.numberOfWord (s : Scalar) (w : UInt64) : Int :=
  match s.kind with
  | .signed => IntegerType.ofWord ⟨true, Value.widthOfSize s.size⟩ w
  | .bool => if w != 0 then 1 else 0
  | _ => IntegerType.ofWord ⟨false, Value.widthOfSize s.size⟩ w

namespace Value

/-- The number of a value as a word with a sign. Only one without a sign and of 64 bits may be too
large. -/
def signedWord? : Value → Option Int64
  | .integer type number _ =>
    if type = ⟨false, .w64⟩ then
      let word := UInt64.ofNat number.toNat
      if word ≤ Int64.maxValue.toUInt64 then some word.toInt64 else none
    else some (Int64.ofInt number)
  | .bool b => some (if b then 1 else 0)
  | .single _ => none
  | .double _ => none

/-- The number of a value as a word without a sign. One with a sign may be negative. -/
def unsignedWord? (v : Value) : Option UInt64 :=
  match v with
  | .integer type number _ =>
    if type.signed then v.signedWord?.bind fun w => if 0 ≤ w then some w.toUInt64 else none
    else some (UInt64.ofNat number.toNat)
  | .bool b => some (if b then 1 else 0)
  | .single _ => none
  | .double _ => none

/-- The word of a value in a scalar of integers or truth values. -/
def toWord? (v : Value) (s : Scalar) : Option UInt64 :=
  match s.kind with
  | .signed =>
    let spare := Int64.ofNat (64 - s.width)
    (v.signedWord?.filter fun w =>
      Int64.minValue >>> spare ≤ w && w ≤ Int64.maxValue >>> spare).map
      fun w => w.toUInt64 &&& lowMask s.width
  | .unsigned | .pointer => v.unsignedWord?.filter fun w => w &&& ~~~lowMask s.width == 0
  | .bool => v.unsignedWord?.filter fun w => w == 0 || w == 1
  | .float => none

end Value

/-! ### Masks -/

/-- A mask of so many bits is the greatest number that they can hold. -/
theorem toNat_lowMask {bits : Nat} (h : bits ≤ 64) : (lowMask bits).toNat = twoPow bits - 1 := by
  unfold lowMask
  split
  · obtain rfl : bits = 64 := by omega
    rfl
  · have hpow : twoPow bits < twoPow 64 := Nat.pow_lt_pow_right (by decide) (by omega)
    have hone : 1 ≤ twoPow bits := twoPow_pos bits
    have hshift : (1 <<< UInt64.ofNat bits : UInt64).toNat = twoPow bits := by
      rw [UInt64.toNat_shiftLeft, UInt64.toNat_ofNat', Nat.mod_eq_of_lt (by omega : bits < 2 ^ 64),
        Nat.mod_eq_of_lt (by omega : bits < 64), UInt64.toNat_one, Nat.one_shiftLeft]
      exact Nat.mod_eq_of_lt hpow
    rw [UInt64.toNat_sub_of_le _ _ (UInt64.le_iff_toNat_le.mpr (by rw [hshift]; exact hone)),
      hshift, UInt64.toNat_one]

/-- A mask keeps the residue of a word. -/
theorem toNat_and_lowMask (w : UInt64) {bits : Nat} (h : bits ≤ 64) :
    (w &&& lowMask bits).toNat = w.toNat % twoPow bits := by
  rw [UInt64.toNat_and, toNat_lowMask h]
  exact Nat.and_two_pow_sub_one_eq_mod _ _

/-- A word has no bits beside a mask just if it is its own residue. -/
theorem and_not_lowMask_eq_zero {w : UInt64} {bits : Nat} (h : bits ≤ 64) :
    w &&& ~~~lowMask bits = 0 ↔ w.toNat < twoPow bits := by
  have hsplit : w &&& lowMask bits ||| w &&& ~~~lowMask bits = w := by
    have hdistrib : w &&& (lowMask bits ||| ~~~lowMask bits) =
        w &&& lowMask bits ||| w &&& ~~~lowMask bits :=
      UInt64.eq_of_toBitVec_eq BitVec.and_or_distrib_left
    rw [← hdistrib, UInt64.or_not_self, UInt64.and_neg_one]
  constructor
  · intro hzero
    rw [hzero, UInt64.or_zero] at hsplit
    rw [← hsplit, toNat_and_lowMask w h]
    exact Nat.mod_lt _ (twoPow_pos bits)
  · intro hlt
    have hself : w &&& lowMask bits = w := by
      rw [← UInt64.toNat_inj, toNat_and_lowMask w h, Nat.mod_eq_of_lt hlt]
    rw [← hself, UInt64.and_assoc, UInt64.and_not_self, UInt64.and_zero]

/-! ### Words and numbers -/

theorem toInt_toInt64 (w : UInt64) : w.toInt64.toInt = Int.bmod w.toNat (twoPow 64) :=
  BitVec.toInt_eq_toNat_bmod w.toBitVec

/-- A word with a sign and the word of the same bits without one have the same residue. -/
theorem toNat_toUInt64 (w : Int64) : (w.toUInt64.toNat : Int) = w.toInt % (twoPow 64 : Int) := by
  have hsame : w.toInt = Int.bmod w.toUInt64.toNat (twoPow 64) := toInt_toInt64 w.toUInt64
  have hlt : w.toUInt64.toNat < twoPow 64 := w.toUInt64.toNat_lt
  rw [hsame, Int.bmod_emod]
  exact (Int.emod_eq_of_lt (by omega) (by omega)).symm

/-- The conversion from an unsigned word is tried, and fails for the numbers that have no sign to
spare. -/
theorem toInt_tryToInt64 (w : UInt64) :
    (if w ≤ Int64.maxValue.toUInt64 then some w.toInt64 else none).map Int64.toInt =
      (some (w.toNat : Int)).filter fun n : Int => n < twoPow 63 := by
  have hmax : Int64.maxValue.toUInt64.toNat = twoPow 63 - 1 := rfl
  have htwice : twoPow 64 = twoPow 63 * 2 := rfl
  have hle : w ≤ Int64.maxValue.toUInt64 ↔ (w.toNat : Int) < twoPow 63 := by
    rw [UInt64.le_iff_toNat_le, hmax]
    have := twoPow_pos 63
    omega
  rw [Option.filter_some]
  by_cases hw : (w.toNat : Int) < twoPow 63
  · have hsame : Int.bmod w.toNat (twoPow 64) = w.toNat :=
      Int.bmod_eq_of_le_mul_two (by omega) (by omega)
    simp [hle, hw, toInt_toInt64, hsame]
  · simp [hle, hw]

/-- The conversion from a word with a sign is tried, and fails for negative numbers. -/
theorem toNat_tryToUInt64 (w : Int64) :
    (if 0 ≤ w then some w.toUInt64 else none).map UInt64.toNat =
      ((some w.toInt).filter fun n : Int => 0 ≤ n).map Int.toNat := by
  have hle : 0 ≤ w ↔ 0 ≤ w.toInt := Int64.le_iff_toInt_le
  have hlt : w.toInt < twoPow 63 := w.toInt_lt
  have hpow : twoPow 63 ≤ twoPow 64 := twoPow_le (by decide)
  have hword := toNat_toUInt64 w
  rw [Option.filter_some]
  by_cases hw : 0 ≤ w.toInt
  · rw [Int.emod_eq_of_lt hw (by omega)] at hword
    simp [hle, ← hword]
  · simp [hle, hw]

/-- The number of a narrower word is the balanced residue of what truncation has left. -/
theorem toInt_of_toNat_eq_mod {bits n : Nat} {x : BitVec bits} (h : x.toNat = n % twoPow bits) :
    x.toInt = Int.bmod n (twoPow bits) := by
  rw [BitVec.toInt_eq_toNat_bmod, h]
  exact Int.emod_bmod n (twoPow bits)

/-- Truncation to an integer type leaves the number of that type that agrees in the low bits. -/
theorem IntegerType.wrap_toNat (t : IntegerType) (w : UInt64) : t.wrap w.toNat = t.ofWord w := by
  obtain ⟨signed, width⟩ := t
  cases signed with
  | false =>
    have hlt := w.toNat_lt
    cases width <;> simp [wrap, ofWord, Width.bits, twoPow]
    omega
  | true =>
    simp only [wrap, ofWord, if_true]
    cases width with
    | w8 => exact (toInt_of_toNat_eq_mod w.toNat_toUInt8).symm
    | w16 => exact (toInt_of_toNat_eq_mod w.toNat_toUInt16).symm
    | w32 => exact (toInt_of_toNat_eq_mod w.toNat_toUInt32).symm
    | w64 => exact (toInt_toInt64 w).symm

/-- All integer types but that of 64 bits without a sign have only numbers of 64 bits with one. -/
theorem IntegerType.Holds.of_ne {t : IntegerType} {n : Int} (h : t.Holds n)
    (ht : t ≠ ⟨false, .w64⟩) : -(twoPow 63 : Int) ≤ n ∧ n < twoPow 63 := by
  obtain ⟨signed, width⟩ := t
  obtain ⟨hleast, hgreatest⟩ := h
  cases signed <;> cases width <;>
    simp [least, greatest, Width.bits, twoPow] at hleast hgreatest ht ⊢ <;> omega

/-- A number without a sign is that of its word. -/
theorem IntegerType.Holds.toNat_ofNat {t : IntegerType} {n : Int} (h : t.Holds n)
    (ht : t.signed = false) : 0 ≤ n ∧ ((UInt64.ofNat n.toNat).toNat : Int) = n := by
  have hrange : 0 ≤ n ∧ n.toNat < twoPow 64 := by
    obtain ⟨signed, width⟩ := t
    obtain rfl : signed = false := ht
    obtain ⟨hleast, hgreatest⟩ := h
    cases width <;> simp [least, greatest, Width.bits, twoPow] at hleast hgreatest ⊢ <;> omega
  refine ⟨hrange.1, ?_⟩
  rw [UInt64.toNat_ofNat_of_lt' hrange.2, Int.toNat_of_nonneg hrange.1]

namespace Value

variable {v : Value} {s : Scalar} {m : DataModel}

/-- A value as a signed word has the number of the value, where that fits. -/
theorem signedWord?_toInt (v : Value) : v.signedWord?.map Int64.toInt = v.signedNumber? := by
  cases v with
  | integer type n holds =>
    unfold signedNumber? number? signedWord?
    by_cases htype : type = ⟨false, .w64⟩
    · have hword := (holds.toNat_ofNat (by rw [htype])).2
      dsimp only
      rw [if_pos htype, toInt_tryToInt64, hword]
    · obtain ⟨hleast, hlt⟩ := holds.of_ne htype
      dsimp only
      rw [if_neg htype, Option.filter_some, if_pos (decide_eq_true hlt), Option.map_some,
        Int64.toInt_ofInt_of_le hleast hlt]
  | bool b => cases b <;> rfl
  | single bits => rfl
  | double bits => rfl

/-- So has a value as an unsigned word. -/
theorem unsignedWord?_toNat (v : Value) : v.unsignedWord?.map UInt64.toNat = v.unsignedNumber? := by
  cases v with
  | integer type n holds =>
    simp only [unsignedWord?, unsignedNumber?, number?]
    cases hsigned : type.signed with
    | true =>
      have htype : type ≠ ⟨false, .w64⟩ := by
        rintro rfl
        cases hsigned
      obtain ⟨hleast, hlt⟩ := holds.of_ne htype
      simp only [if_true, signedWord?, if_neg htype, Option.bind_some, toNat_tryToUInt64,
        Int64.toInt_ofInt_of_le hleast hlt]
    | false =>
      obtain ⟨hnonneg, hword⟩ := holds.toNat_ofNat hsigned
      have hword : (UInt64.ofNat n.toNat).toNat = n.toNat := by omega
      simp [hnonneg, hword]
  | bool b => cases b <;> rfl
  | single bits => rfl
  | double bits => rfl

end Value

section Bounds

variable {m : DataModel} {s : Scalar}

/-- Scalars have one, two, four or eight bytes. -/
theorem Scalar.width_cases (hs : m.Has s) :
    s.width = 8 ∨ s.width = 16 ∨ s.width = 32 ∨ s.width = 64 := by
  have hsize := hs.size
  unfold width
  omega

theorem Scalar.width_le (hs : m.Has s) : s.width ≤ 64 := by
  have := Scalar.width_cases hs
  omega

/-- The bits that are not used are shifted out of the least word, and copies of its sign bit in. -/
theorem toInt_least (hs : m.Has s) :
    (Int64.minValue >>> Int64.ofNat (64 - s.width)).toInt = -(twoPow (s.width - 1) : Int) := by
  rcases Scalar.width_cases hs with h | h | h | h <;> rw [h] <;> decide

/-- The shifted maximum is the greatest signed number of the width. -/
theorem toInt_greatest (hs : m.Has s) :
    (Int64.maxValue >>> Int64.ofNat (64 - s.width)).toInt = twoPow (s.width - 1) - 1 := by
  rcases Scalar.width_cases hs with h | h | h | h <;> rw [h] <;> decide

/-- The residue of a word with a sign is what a mask leaves of it. -/
theorem toNat_toUInt64_and (hs : m.Has s) (w : Int64) :
    (w.toUInt64 &&& lowMask s.width).toNat = (w.toInt % (twoPow s.width : Int)).toNat := by
  have hwidth := Scalar.width_le hs
  have hdvd : twoPow s.width ∣ twoPow 64 := Nat.pow_dvd_pow 2 hwidth
  rw [toNat_and_lowMask _ hwidth, ← Int.emod_emod_of_dvd w.toInt (Int.natCast_dvd_natCast.mpr hdvd),
    ← toNat_toUInt64]
  rfl

/-- The arithmetic of the machine gives the bits of a value. -/
theorem Value.toWord?_toNat (hs : m.Has s) (hkind : s.kind ≠ .float) (v : Value) :
    (v.toWord? s).map UInt64.toNat = v.toBits? s := by
  have hmask : ∀ w : UInt64,
      (w &&& ~~~lowMask s.width == 0) = decide (w.toNat < twoPow s.width) := by
    intro w
    rw [Bool.eq_iff_iff, beq_iff_eq, decide_eq_true_iff,
      and_not_lowMask_eq_zero (Scalar.width_le hs)]
  unfold toWord? toBits?
  cases hk : s.kind with
  | signed =>
    -- the bounds of a width are the extreme words, shifted down to it
    have hrange : ∀ w : Int64, (Int64.minValue >>> Int64.ofNat (64 - s.width) ≤ w &&
        w ≤ Int64.maxValue >>> Int64.ofNat (64 - s.width) : Bool) =
          (-(twoPow (s.width - 1) : Int) ≤ w.toInt && w.toInt < twoPow (s.width - 1) : Bool) := by
      intro w
      have hgreatest := toInt_greatest hs
      simp only [Int64.le_iff_toInt_le, toInt_least hs, hgreatest]
      grind
    dsimp only
    rw [← signedWord?_toInt, Option.filter_map, Option.map_map, Option.map_map]
    congr 1
    · funext w
      exact toNat_toUInt64_and hs w
    · congr 1
      funext w
      exact hrange w
  | unsigned =>
    dsimp only
    rw [← unsignedWord?_toNat, Option.filter_map]
    exact congrArg (Option.map _ <| Option.filter · _) (funext hmask)
  | pointer =>
    dsimp only
    rw [← unsignedWord?_toNat, Option.filter_map]
    exact congrArg (Option.map _ <| Option.filter · _) (funext hmask)
  | bool =>
    have hbit : ∀ w : UInt64, (w == 0 || w == 1) = decide (w.toNat ≤ 1) := by
      intro w
      rw [Bool.eq_iff_iff, Bool.or_eq_true, beq_iff_eq, beq_iff_eq, decide_eq_true_iff,
        ← UInt64.toNat_inj, ← UInt64.toNat_inj, UInt64.toNat_zero, UInt64.toNat_one]
      omega
    dsimp only
    rw [← unsignedWord?_toNat, Option.filter_map]
    exact congrArg (Option.map _ <| Option.filter · _) (funext hbit)
  | float => exact absurd hk hkind

/-- A word stands for the number that its bits stand for. -/
theorem Value.number?_ofBits_toNat (hkind : s.kind ≠ .float) (w : UInt64) :
    (ofBits w.toNat s).number? = some (s.numberOfWord w) := by
  unfold ofBits Scalar.numberOfWord
  cases hk : s.kind with
  | signed => exact congrArg some (IntegerType.wrap_toNat _ w)
  | unsigned => exact congrArg some (IntegerType.wrap_toNat _ w)
  | pointer => exact congrArg some (IntegerType.wrap_toNat _ w)
  | bool =>
    have hzero : (w.toNat != 0) = (w != 0) := by
      rw [Bool.eq_iff_iff, bne_iff_ne, bne_iff_ne, Ne, Ne, ← UInt64.toNat_inj, UInt64.toNat_zero]
    simp [number?, hzero]
  | float => exact absurd hk hkind

end Bounds

/-- A scalar encodes the numbers that have a place in it, and only these; its bits are decoded to
them again, and the arithmetic of the machine does the same. -/
structure EncodesNumbers (s : Scalar) : Prop where
  size : 1 ≤ s.size ∧ s.size ≤ 8
  toBits : ∀ (v : Value) (bits : Nat), v.toBits? s = some bits ↔
    ∃ n : Int, v.number? = some n ∧ s.Holds n ∧ (bits : Int) = n % (twoPow s.width : Int)
  lt : ∀ (v : Value) (bits : Nat), v.toBits? s = some bits → bits < twoPow s.width
  back : ∀ (v : Value) (bits : Nat), v.toBits? s = some bits →
    (Value.ofBits bits s).number? = v.number?
  forth : ∀ bits < twoPow s.width, (s.kind = .bool → bits ≤ 1) →
    (Value.ofBits bits s).toBits? s = some bits
  toWord : ∀ v : Value, (v.toWord? s).map UInt64.toNat = v.toBits? s
  ofWord : ∀ w : UInt64, (Value.ofBits w.toNat s).number? = some (s.numberOfWord w)

namespace Value

variable {m : DataModel} {s : Scalar}

/-- A value has bits just if its number has a place in the scalar. -/
theorem toBits?_eq_some (hs : m.Has s) (hkind : s.kind ≠ .float) {v : Value} {bits : Nat} :
    v.toBits? s = some bits ↔
      ∃ n : Int, v.number? = some n ∧ s.Holds n ∧ (bits : Int) = n % (twoPow s.width : Int) := by
  have hpos := twoPow_pos s.width
  have hunsigned : ((∃ n : Int, v.number? = some n ∧ 0 ≤ n ∧ n.toNat = bits) ∧
      bits < twoPow s.width) ↔ ∃ n : Int, v.number? = some n ∧ (0 ≤ n ∧ n < twoPow s.width) ∧
        (bits : Int) = n % (twoPow s.width : Int) := by
    constructor
    · rintro ⟨⟨n, hn, hnonneg, rfl⟩, hlt⟩
      exact ⟨n, hn, ⟨hnonneg, by omega⟩, by rw [Int.emod_eq_of_lt hnonneg] <;> omega⟩
    · rintro ⟨n, hn, ⟨hnonneg, hlt⟩, hbits⟩
      rw [Int.emod_eq_of_lt hnonneg hlt] at hbits
      exact ⟨⟨n, hn, hnonneg, by omega⟩, by omega⟩
  unfold Scalar.Holds
  cases hk : s.kind with
  | signed =>
    have hhalf : twoPow (s.width - 1) ≤ twoPow 63 := by
      have hwidth := Scalar.width_le hs
      exact twoPow_le (by omega)
    rw [toBits?_signed hk, ← Scalar.width]
    constructor
    · rintro ⟨n, ⟨hn, -⟩, hrange, rfl⟩
      exact ⟨n, hn, hrange, Int.toNat_of_nonneg (Int.emod_nonneg n (by omega))⟩
    · rintro ⟨n, hn, hrange, hbits⟩
      exact ⟨n, ⟨hn, by omega⟩, hrange, by rw [← hbits, Int.toNat_natCast]⟩
  | unsigned => rw [toBits?_unsigned (.inl hk)]; exact hunsigned
  | pointer => rw [toBits?_unsigned (.inr hk)]; exact hunsigned
  | bool =>
    -- a `bool` has a byte, but only two of its numbers
    have hbyte : (twoPow s.width : Int) = 256 := by
      rw [Scalar.width, hs.bool hk]
      rfl
    rw [toBits?_bool hk, hbyte]
    constructor
    · rintro ⟨⟨n, hn, hnonneg, rfl⟩, hle⟩
      exact ⟨n, hn, by omega, by omega⟩
    · rintro ⟨n, hn, hbit, hbits⟩
      exact ⟨⟨n, hn, by omega, by omega⟩, by omega⟩
  | float => exact absurd hk hkind

/-- Bits that a scalar has room for are those of the value they stand for. -/
theorem toBits?_ofBits (hs : m.Has s) (hkind : s.kind ≠ .float) {bits : Nat}
    (hlt : bits < twoPow s.width) (hbool : s.kind = .bool → bits ≤ 1) :
    (ofBits bits s).toBits? s = some bits := by
  have hwidth : (widthOfSize s.size).bits = s.width := bits_widthOfSize hs
  have hresidue : (bits : Int) = bits % (twoPow s.width : Int) :=
    (Int.emod_eq_of_lt (by omega) (by omega)).symm
  rw [toBits?_eq_some hs hkind]
  unfold ofBits Scalar.Holds
  cases hk : s.kind with
  | signed =>
    obtain ⟨hleast, hgreatest⟩ := IntegerType.holds_wrap ⟨true, widthOfSize s.size⟩ bits
    simp only [IntegerType.least, IntegerType.greatest, if_true, hwidth] at hleast hgreatest
    refine ⟨_, rfl, ⟨hleast, by omega⟩, ?_⟩
    rw [IntegerType.wrap, if_pos rfl, hwidth, Int.bmod_emod]
    exact hresidue
  | unsigned =>
    refine ⟨bits, ?_, ⟨by omega, by omega⟩, hresidue⟩
    rw [number?_ofLowBits, wrap_of_lt rfl (by rwa [hwidth])]
  | pointer =>
    refine ⟨bits, ?_, ⟨by omega, by omega⟩, hresidue⟩
    rw [number?_ofLowBits, wrap_of_lt rfl (by rwa [hwidth])]
  | bool =>
    have hbit : bits = 0 ∨ bits = 1 := by
      have := hbool hk
      omega
    refine ⟨bits, ?_, by omega, hresidue⟩
    rcases hbit with rfl | rfl <;> rfl
  | float => exact absurd hk hkind

end Value

/-- Every scalar of a data model, other than a floating-point one, encodes numbers. -/
theorem encodesNumbers_of_offers {m : DataModel} {s : Scalar} (h : m.Offers s)
    (hkind : s.kind ≠ .float) : EncodesNumbers s where
  size := ⟨h.has.size_pos, h.has.size_le⟩
  toBits _ _ := Value.toBits?_eq_some h.has hkind
  lt _ _ := Value.toBits?_lt h.has
  back _ _ := Value.number?_ofBits h.has hkind
  forth _ := Value.toBits?_ofBits h.has hkind
  toWord := Value.toWord?_toNat h.has hkind
  ofWord := Value.number?_ofBits_toNat hkind

theorem encodesNumbers_long :
    DataModel.lp64.Offers ⟨.signed, 8, 8⟩ ∧ ScalarKind.signed ≠ .float ∧
      EncodesNumbers ⟨.signed, 8, 8⟩ := by
  have hoffers : DataModel.lp64.Offers ⟨.signed, 8, 8⟩ := .inl ⟨"const long", rfl⟩
  exact ⟨hoffers, nofun, encodesNumbers_of_offers hoffers nofun⟩

/-- The greatest word without a sign is none with a sign. -/
example :
    (Value.integer ⟨false, .w64⟩ 18446744073709551615 (by decide)).toBits? ⟨.unsigned, 8, 8⟩ =
        some 18446744073709551615 ∧
      (Value.integer ⟨false, .w64⟩ 18446744073709551615 (by decide)).toBits? ⟨.signed, 8, 8⟩ =
        none := by
  decide

end MessageSchema.Memory
