import MessageSchema.Proofs.Guarded.Literals

/-!
# Literals in words of 128 bits

`integerIn128` reads an integer in a word of 128 bits: the word is multiplied by the base and a
digit is added to it, digit after digit, and in the end its sign is changed. A product or a sum
that the word does not hold is reported; a change of sign that it does not hold breaks. On literals
as the grammar has them it does what `integerOfLiteral` does (`integerIn128_eq`).

- **One digit** (`appendDigit_eq`): it goes through just if the word holds the number with the
  digit.
- **All digits** (`foldlM_appendDigit_eq`): a number that is too large stays so with every digit,
  so all of them go through just if the word holds their number.
-/

namespace MessageSchema.Source

open Guarded

/-- A word with one more digit behind its digits of the given base. -/
def appendDigit (base : Nat) (word : BitVec 128) (c : Char) :
    Guarded IntegerFault (BitVec 128) := do
  let digit ← found .notDigits (digit? base c)
  if word.smulOverflow (.ofNat 128 base) then report .tooLarge
  else if (word * .ofNat 128 base).saddOverflow (.ofNat 128 digit) then report .tooLarge
  else return word * .ofNat 128 base + .ofNat 128 digit

/-- The word of digits, of which there is at least one. -/
def wordOfDigits (base : Nat) (digits : List Char) : Guarded IntegerFault (BitVec 128) :=
  if digits.isEmpty then fault .notDigits else digits.foldlM (appendDigit base) 0

/-- The word of a magnitude. -/
def wordOfMagnitude (magnitude : List Char) : Guarded IntegerFault (BitVec 128) :=
  let (base, digits) := splitMark magnitude
  wordOfDigits base digits

/-- The word of the opposite number. -/
def negateWord (word : BitVec 128) : Guarded IntegerFault (BitVec 128) :=
  if word.negOverflow then fault .negationOverflow else .ok (-word)

/-- The word of an integer literal. -/
def wordOfLiteral (literal : List Char) : Guarded IntegerFault (BitVec 128) := do
  let (negative, magnitude) := splitSign literal
  let word ← wordOfMagnitude magnitude
  if negative then negateWord word else return word

/-- `integerOfLiteral` in words of 128 bits. -/
def integerIn128 (literal : List Char) : Guarded IntegerFault Int64 := do
  let word ← wordOfLiteral literal
  fitGuarded word.toInt

section Words

variable {n m : Nat}

theorem toInt_ofNat_of_lt (h : n < twoPow 127) : (BitVec.ofNat 128 n).toInt = n := by
  have htwo : twoPow 127 = 2 ^ 127 := rfl
  rw [htwo] at h
  rw [BitVec.toInt_ofNat']
  exact Int.bmod_eq_of_le (by omega) (by omega)

/-- A product overflows just if the numbers multiply to 2¹²⁷ or more. -/
theorem smulOverflow_ofNat (hn : n < twoPow 127) (hm : m < twoPow 127) :
    (BitVec.ofNat 128 n).smulOverflow (.ofNat 128 m) = decide (twoPow 127 ≤ n * m) := by
  have htwo : twoPow 127 = 2 ^ 127 := rfl
  rw [BitVec.smulOverflow, toInt_ofNat_of_lt hn, toInt_ofNat_of_lt hm, ← Int.natCast_mul, htwo]
  generalize n * m = product
  rw [Bool.eq_iff_iff]
  simp only [Bool.or_eq_true, decide_eq_true_eq]
  omega

/-- A sum overflows just if the numbers add up to as much. -/
theorem saddOverflow_ofNat (hn : n < twoPow 127) (hm : m < twoPow 127) :
    (BitVec.ofNat 128 n).saddOverflow (.ofNat 128 m) = decide (twoPow 127 ≤ n + m) := by
  have htwo : twoPow 127 = 2 ^ 127 := rfl
  rw [BitVec.saddOverflow, toInt_ofNat_of_lt hn, toInt_ofNat_of_lt hm, htwo, Bool.eq_iff_iff]
  simp only [Bool.or_eq_true, decide_eq_true_eq]
  omega

/-- A number that is not below 0 has its opposite in a word. -/
theorem negateWord_ofNat (h : n < twoPow 127) :
    ∃ word, negateWord (.ofNat 128 n) = .ok word ∧ word.toInt = -n := by
  have hnone : ¬ (BitVec.ofNat 128 n).negOverflow = true := by
    rw [BitVec.negOverflow, toInt_ofNat_of_lt h, beq_iff_eq]
    omega
  refine ⟨_, if_neg hnone, ?_⟩
  rw [BitVec.toInt_neg_of_not_negOverflow hnone, toInt_ofNat_of_lt h]

end Words

/-! ## Digits -/

variable {s : List Char} {base n d : Nat} {c : Char}

/-- One more digit is taken up, or the number is too large. -/
theorem appendDigit_eq (hn : n < twoPow 127) (hc : IsDigit d c) (hd : d < base)
    (hbase : base ≤ 16) : appendDigit base (.ofNat 128 n) c =
      if n * base + d ≥ twoPow 127 then report .tooLarge else .ok (.ofNat 128 (n * base + d)) := by
  have hsmall : 16 < twoPow 127 := by decide
  rw [appendDigit, digit?_eq hc hd hbase, smulOverflow_ofNat hn (by omega),
    ← BitVec.ofNat_mul]
  show (if _ then _ else _) = _
  by_cases hproduct : twoPow 127 ≤ n * base
  · rw [if_pos (decide_eq_true hproduct), if_pos (by omega)]
  · rw [if_neg (by simpa using hproduct), saddOverflow_ofNat (by omega) (by omega)]
    by_cases hsum : twoPow 127 ≤ n * base + d
    · rw [if_pos (decide_eq_true hsum), if_pos hsum]
    · rw [if_neg (by simpa using hsum), if_neg hsum, BitVec.ofNat_add]
      rfl

/-- The digits of a numeral make its number, or the number is too large. -/
theorem foldlM_appendDigit_eq (h : Numeral base s n) (hbase : base ≤ 16) :
    s.foldlM (appendDigit base) 0 =
      if n ≥ twoPow 127 then report .tooLarge else .ok (.ofNat 128 n) := by
  induction h with
  | @digit d c hd hc =>
    have hfirst := appendDigit_eq (twoPow_pos 127) hc hd hbase
    rw [Nat.zero_mul, Nat.zero_add] at hfirst
    rw [← hfirst, List.foldlM_cons]
    show appendDigit base 0 c >>= pure = _
    rw [bind_pure]
    rfl
  | @snoc s n d c _ hd hc ih =>
    rw [List.foldlM_append, ih]
    by_cases hn : n ≥ twoPow 127
    · have hmore : n ≤ n * base := Nat.le_mul_of_pos_right n (by omega)
      rw [if_pos hn, if_pos (by omega)]
      rfl
    · rw [if_neg hn, ← appendDigit_eq (by omega) hc hd hbase]
      show appendDigit base _ c >>= pure = _
      rw [bind_pure]

theorem wordOfDigits_eq (h : Numeral base s n) (hbase : base ≤ 16) : wordOfDigits base s =
    if n ≥ twoPow 127 then report .tooLarge else .ok (.ofNat 128 n) := by
  rw [wordOfDigits, if_neg (by simpa using h.ne_nil), foldlM_appendDigit_eq h hbase]

/-! ## Literals -/

theorem wordOfMagnitude_eq (h : SpellsNumber s n) : wordOfMagnitude s =
    if n ≥ twoPow 127 then report .tooLarge else .ok (.ofNat 128 n) := by
  obtain ⟨base, digits, hmark, hbase, hdigits⟩ := splitMark_of_spellsNumber h
  rw [wordOfMagnitude, hmark]
  exact wordOfDigits_eq hdigits hbase

theorem wordOfLiteral_of_tooLarge {n : Int} (h : SpellsInteger s n)
    (hn : n.natAbs ≥ twoPow 127) : wordOfLiteral s = report .tooLarge := by
  cases h with
  | unsigned h =>
    rw [Int.natAbs_natCast] at hn
    rw [wordOfLiteral, splitSign_of_spellsNumber h]
    dsimp only
    rw [wordOfMagnitude_eq h, if_pos hn]
    rfl
  | negative h =>
    rw [Int.natAbs_neg, Int.natAbs_natCast] at hn
    rw [wordOfLiteral, splitSign]
    dsimp only
    rw [wordOfMagnitude_eq h, if_pos hn]
    rfl

/-- A literal within the range has its number in a word. -/
theorem exists_wordOfLiteral {n : Int} (h : SpellsInteger s n) (hn : n.natAbs < twoPow 127) :
    ∃ word, wordOfLiteral s = .ok word ∧ word.toInt = n := by
  cases h with
  | @unsigned s n h =>
    rw [Int.natAbs_natCast] at hn
    rw [wordOfLiteral, splitSign_of_spellsNumber h]
    dsimp only
    rw [wordOfMagnitude_eq h, if_neg (by omega)]
    exact ⟨_, rfl, toInt_ofNat_of_lt hn⟩
  | negative h =>
    rw [Int.natAbs_neg, Int.natAbs_natCast] at hn
    rw [wordOfLiteral, splitSign]
    dsimp only
    rw [wordOfMagnitude_eq h, if_neg (by omega)]
    exact negateWord_ofNat hn

/-- Words of 128 bits are enough for every literal that is not too large. -/
theorem integerIn128_eq {n : Int} (h : SpellsInteger s n) :
    integerIn128 s = guarded (integerOfLiteral s) := by
  obtain ⟨hvalue, hmagnitude⟩ := literalValue_of_spellsInteger h
  rw [integerIn128, integerOfLiteral, hvalue, hmagnitude]
  by_cases hn : n.natAbs ≥ twoPow 127
  · rw [wordOfLiteral_of_tooLarge h hn, if_pos hn]
    rfl
  · obtain ⟨word, hword, rfl⟩ := exists_wordOfLiteral h (by omega)
    rw [hword, if_neg hn]
    show fitGuarded word.toInt = guarded (if _ then _ else _)
    rw [fitGuarded]
    split <;> rfl

end MessageSchema.Source
