import Mathlib.Data.Nat.Digits.Defs
import MessageSchema.Proofs.Guarded.Overflow
import MessageSchema.Proofs.Source.Accepted

/-!
# The number of an integer literal

An integer literal is a number in positional notation (`HasValue`): perhaps a minus sign, then
decimal digits, or `0x` or `0X` and digits of base sixteen in either case. Main statement:
`readsNumber`.

- **Notation** (`numeral_iff`, `spellsInteger_iff`): digits that are read one behind the other
  stand for the sum of their values times powers of the base.
- **The grammar** (`isIntegerLiteral_iff`): these literals are what the grammar takes for an
  integer.
- **The cell** (`cell_eq_ok`, `refused_iff`): it has the number of the literal, if 64 bits hold it.
  If they do not, the error says so, and of a magnitude beyond 127 bits that it is too large. This
  is what reading the literal in a word of 128 bits comes to (`integerIn128_eq`).
-/

namespace MessageSchema.Source

open Guarded

/-! ## Positional notation -/

/-- What may stand in front of digits, and their base. -/
inductive Mark : List Char → Nat → Prop
  | decimal : Mark [] 10
  | lowerHex : Mark ['0', 'x'] 16
  | upperHex : Mark ['0', 'X'] 16

/-- The text is one digit or more of the base, and the number is the sum of the digits times the
powers of the base, the last digit times the lowest. -/
structure PlaceValue (base : Nat) (text : List Char) (n : Nat) : Prop where
  ne_nil : text ≠ []
  sum : ∃ digits, List.Forall₂ IsDigit digits text.reverse ∧ (∀ d ∈ digits, d < base) ∧
    n = Nat.ofDigits base digits

/-- The number that an integer literal is written for. -/
inductive HasValue : List Char → Int → Prop
  | unsigned {mark text : List Char} {base n : Nat} :
    Mark mark base → PlaceValue base text n → HasValue (mark ++ text) n
  | negative {mark text : List Char} {base n : Nat} :
    Mark mark base → PlaceValue base text n → HasValue ('-' :: (mark ++ text)) (-n)

variable {base n : Nat} {s : List Char}

theorem placeValue_of_numeral (h : Numeral base s n) : PlaceValue base s n := by
  induction h with
  | @digit d c hd hc =>
    exact ⟨List.cons_ne_nil _ _, [d], .cons hc .nil, by simpa using hd, by simp⟩
  | @snoc s n d c _ hd hc ih =>
    obtain ⟨-, digits, hdigits, hlt, rfl⟩ := ih
    refine ⟨by simp, d :: digits, ?_, List.forall_mem_cons.mpr ⟨hd, hlt⟩, ?_⟩
    · rw [List.reverse_append]
      exact .cons hc hdigits
    · rw [Nat.ofDigits_cons, Nat.mul_comm, Nat.add_comm]

theorem numeral_of_forall₂ {digits : List Nat} (h : List.Forall₂ IsDigit digits s)
    (hlt : ∀ d ∈ digits, d < base) (hne : s ≠ []) :
    Numeral base s.reverse (Nat.ofDigits base digits) := by
  induction h with
  | nil => exact absurd rfl hne
  | @cons d c digits s hc hdigits ih =>
    obtain ⟨hd, hlt⟩ := List.forall_mem_cons.mp hlt
    rw [List.reverse_cons, Nat.ofDigits_cons]
    cases hdigits with
    | nil => simpa using Numeral.digit hd hc
    | cons _ _ =>
      have hrest := ih hlt (List.cons_ne_nil _ _)
      simpa [Nat.mul_comm, Nat.add_comm] using Numeral.snoc hrest hd hc

/-- Digits make a number by their places. -/
theorem numeral_iff : Numeral base s n ↔ PlaceValue base s n := by
  refine ⟨placeValue_of_numeral, ?_⟩
  rintro ⟨hne, digits, hdigits, hlt, rfl⟩
  have h := numeral_of_forall₂ hdigits hlt (by simpa using hne)
  rwa [List.reverse_reverse] at h

theorem spellsNumber_iff : SpellsNumber s n ↔
    ∃ mark base text, Mark mark base ∧ PlaceValue base text n ∧ s = mark ++ text := by
  constructor
  · rintro (h | ⟨rfl | rfl, h⟩)
    · exact ⟨_, _, _, .decimal, numeral_iff.mp h, rfl⟩
    · exact ⟨_, _, _, .lowerHex, numeral_iff.mp h, rfl⟩
    · exact ⟨_, _, _, .upperHex, numeral_iff.mp h, rfl⟩
  · rintro ⟨_, _, text, hmark, h, rfl⟩
    have htext := numeral_iff.mpr h
    cases hmark with
    | decimal => exact .decimal htext
    | lowerHex => exact .hex (.inl rfl) htext
    | upperHex => exact .hex (.inr rfl) htext

/-- What spells an integer has its value in positional notation. -/
theorem spellsInteger_iff {n : Int} : SpellsInteger s n ↔ HasValue s n := by
  constructor
  · rintro (h | h)
    · obtain ⟨_, _, _, hmark, hvalue, rfl⟩ := spellsNumber_iff.mp h
      exact .unsigned hmark hvalue
    · obtain ⟨_, _, _, hmark, hvalue, rfl⟩ := spellsNumber_iff.mp h
      exact .negative hmark hvalue
  · rintro (⟨hmark, hvalue⟩ | ⟨hmark, hvalue⟩)
    · exact .unsigned (spellsNumber_iff.mpr ⟨_, _, _, hmark, hvalue, rfl⟩)
    · exact .negative (spellsNumber_iff.mpr ⟨_, _, _, hmark, hvalue, rfl⟩)

/-- The grammar takes this text for an integer at the beginning of some source. -/
def IsIntegerLiteral (s : String) : Prop :=
  ∃ source rest, Gives integerTerm source (.integer s) rest

theorem hasValue_of_splitInteger {rest : List Char} {lexeme : List Char}
    (h : splitInteger s = some (lexeme, rest)) : HasValue lexeme (literalValue lexeme) := by
  obtain ⟨⟨n, hn⟩, -⟩ := spellsInteger_of_splitInteger h
  rw [(literalValue_of_spellsInteger hn).1]
  exact spellsInteger_iff.mp hn

/-- The grammar takes just the texts that have a value. -/
theorem isIntegerLiteral_iff {s : String} : IsIntegerLiteral s ↔ ∃ n, HasValue s.toList n := by
  constructor
  · rintro ⟨source, rest, h⟩
    obtain ⟨spelling, hread, hs⟩ := h.of_asRule.of_returns
    rw [Term.integer.injEq] at hs
    rw [hs, String.toList_ofList]
    exact ⟨_, hasValue_of_splitInteger hread.of_lexeme⟩
  · rintro ⟨n, hn⟩
    have hends : Ends [] := by simp [Ends]
    obtain ⟨offset, a, h⟩ := reads_integerTerm (spellsInteger_iff.mpr hn) hends 0 {}
    exact ⟨_, _, 0, {}, offset, a, h⟩

/-! ## The cell -/

/-- The literal has no cell, and this is what is said about it. -/
def Refused (s message : String) : Prop :=
  ∃ error, (Term.integer s).cell = .error error ∧ error.message = message

/-- The numbers that 64 bits hold. -/
def Fits (n : Int) : Prop :=
  Int64.minValue.toInt ≤ n ∧ n ≤ Int64.maxValue.toInt

instance (n : Int) : Decidable (Fits n) :=
  inferInstanceAs (Decidable (_ ∧ _))

variable {literal : String} {value : Int}

theorem fits_iff : Fits value ↔ -(twoPow 63 : Int) ≤ value ∧ value < twoPow 63 := by
  have htwo : twoPow 63 = 2 ^ 63 := rfl
  rw [Fits, Int64.toInt_minValue, Int64.toInt_maxValue, htwo]
  omega

theorem cell_of_fits (h : HasValue literal.toList value) (hfits : Fits value) :
    (Term.integer literal).cell = .ok (.integer (Int64.ofInt value)) := by
  rw [Term.cell, integerOfLiteral_of_spellsInteger (spellsInteger_iff.mpr h),
    if_pos (fits_iff.mp hfits)]

/-- A literal that does not fit is refused, and the error says in which way. -/
theorem cell_of_not_fits (h : HasValue literal.toList value) (hfits : ¬ Fits value) :
    (Term.integer literal).cell = .error (.badInteger literal (faultOf value)) := by
  rw [Term.cell, integerOfLiteral_of_spellsInteger (spellsInteger_iff.mpr h),
    if_neg fun hrange => hfits (fits_iff.mpr hrange)]

theorem message_tooLarge_ne_outOfRange :
    (SourceError.badInteger literal .tooLarge).message ≠
      (SourceError.badInteger literal .outOfRange).message := by
  intro h
  have hend : "`: number too large to fit in target type" = "` out of range" :=
    String.append_right_inj _ |>.mp h
  exact absurd hend (by decide)

theorem faultOf_eq_tooLarge :
    faultOf value = .tooLarge ↔ (BitVec.intMax 128).toInt < value.natAbs := by
  have hmax : (BitVec.intMax 128).toInt = twoPow 127 - 1 := by decide
  rw [hmax, faultOf]
  split
  · exact iff_of_true rfl (by omega)
  · exact iff_of_false (by simp) (by omega)

theorem faultOf_eq_outOfRange :
    faultOf value = .outOfRange ↔ value.natAbs ≤ (BitVec.intMax 128).toInt := by
  rw [← not_lt, ← faultOf_eq_tooLarge]
  cases faultOf value <;> simp

/-- A number that is too large is not one of 64 bits. -/
theorem not_fits_of_tooLarge (h : faultOf value = .tooLarge) : ¬ Fits value := by
  have hlarge : twoPow 63 < twoPow 127 := by decide
  intro hfits
  have hrange := fits_iff.mp hfits
  rw [faultOf, if_neg (by omega)] at h
  cases h

theorem refused_iff (h : HasValue literal.toList value) (fault : IntegerFault) :
    Refused literal (SourceError.badInteger literal fault).message ↔
      ¬ Fits value ∧ faultOf value = fault := by
  by_cases hfits : Fits value
  · refine iff_of_false ?_ fun hnot => hnot.1 hfits
    rintro ⟨error, herror, -⟩
    rw [cell_of_fits h hfits] at herror
    cases herror
  · rw [Refused, cell_of_not_fits h hfits, and_iff_right hfits]
    simp only [Except.error.injEq, exists_eq_left']
    cases faultOf value <;> cases fault
    · exact iff_of_true rfl rfl
    · exact iff_of_false message_tooLarge_ne_outOfRange nofun
    · exact iff_of_false message_tooLarge_ne_outOfRange.symm nofun
    · exact iff_of_true rfl rfl

/-- A literal has a cell just if its value fits, and then that of its value. -/
theorem cell_eq_ok (h : HasValue literal.toList value) {cell : Cell} :
    (Term.integer literal).cell = .ok cell ↔ ∃ v : Int64, cell = .integer v ∧ v.toInt = value := by
  by_cases hfits : Fits value
  · have hrange := fits_iff.mp hfits
    have htwo : twoPow 63 = 2 ^ 63 := rfl
    rw [htwo] at hrange
    have hvalue : (Int64.ofInt value).toInt = value :=
      Int64.toInt_ofInt_of_le (by omega) (by omega)
    rw [cell_of_fits h hfits, Except.ok.injEq]
    constructor
    · rintro rfl
      exact ⟨_, rfl, hvalue⟩
    · rintro ⟨v, rfl, hv⟩
      rw [← hv, Int64.ofInt_toInt]
  · rw [cell_of_not_fits h hfits]
    refine iff_of_false nofun ?_
    rintro ⟨v, -, rfl⟩
    have hlow := v.le_toInt
    have hhigh := v.toInt_lt
    rw [Fits, Int64.toInt_minValue, Int64.toInt_maxValue] at hfits
    omega

/-- What an integer literal comes to that is written for this number. -/
structure ReadsValue (literal : String) (value : Int) : Prop where
  unique : ∀ other, HasValue literal.toList other → other = value
  cell : ∀ cell, (Term.integer literal).cell = .ok cell ↔
    ∃ v : Int64, cell = .integer v ∧ v.toInt = value
  accepted : (∃ cell, (Term.integer literal).cell = .ok cell) ↔ Fits value
  tooLarge : Refused literal
      ("Parse error: integer `" ++ literal ++ "`: number too large to fit in target type") ↔
    (BitVec.intMax 128).toInt < value.natAbs
  outOfRange : Refused literal ("Parse error: integer `" ++ literal ++ "` out of range") ↔
    ¬ Fits value ∧ value.natAbs ≤ (BitVec.intMax 128).toInt
  least : value = Int64.minValue.toInt → (Term.integer literal).cell = .ok (.integer Int64.minValue)
  beyond : value = Int64.maxValue.toInt + 1 →
    Refused literal ("Parse error: integer `" ++ literal ++ "` out of range")
  words : integerIn128 literal.toList = guarded (integerOfLiteral literal.toList)
  negation : integerIn128 literal.toList ≠ fault .negationOverflow

/-- What the grammar takes for an integer is a number in positional notation, and read as this
number, or refused if 64 bits do not hold it. -/
theorem readsNumber (literal : String) :
    (IsIntegerLiteral literal ↔ ∃ value, HasValue literal.toList value) ∧
      ∀ value, HasValue literal.toList value → ReadsValue literal value := by
  refine ⟨isIntegerLiteral_iff, fun value h => ?_⟩
  have hspells := spellsInteger_iff.mpr h
  have houtOfRange : Refused literal ("Parse error: integer `" ++ literal ++ "` out of range") ↔
      ¬ Fits value ∧ value.natAbs ≤ (BitVec.intMax 128).toInt := by
    rw [← faultOf_eq_outOfRange]
    exact refused_iff h .outOfRange
  refine ⟨fun other hother => ?_, fun _ => cell_eq_ok h, ?_, ?_, houtOfRange, ?_, ?_, ?_, ?_⟩
  · have hvalue := literalValue_of_spellsInteger hspells
    have hsame := literalValue_of_spellsInteger (spellsInteger_iff.mpr hother)
    exact hsame.1.symm.trans hvalue.1
  · constructor
    · rintro ⟨cell, hcell⟩
      by_contra hfits
      rw [cell_of_not_fits h hfits] at hcell
      cases hcell
    · intro hfits
      exact ⟨_, cell_of_fits h hfits⟩
  · rw [← faultOf_eq_tooLarge]
    exact (refused_iff h .tooLarge).trans (and_iff_right_of_imp not_fits_of_tooLarge)
  · intro hleast
    exact (cell_eq_ok h).mpr ⟨_, rfl, hleast.symm⟩
  · rintro rfl
    exact houtOfRange.mpr (by decide)
  · exact integerIn128_eq hspells
  · rw [integerIn128_eq hspells]
    cases integerOfLiteral literal.toList <;> nofun

theorem readsNumber_least :
    HasValue "-9223372036854775808".toList Int64.minValue.toInt ∧
      HasValue "-0X8000000000000000".toList Int64.minValue.toInt ∧
      (Term.integer "-9223372036854775808").cell = .ok (.integer Int64.minValue) ∧
      (Term.integer "-0X8000000000000000").cell = .ok (.integer Int64.minValue) := by
  have hdecimal : HasValue "-9223372036854775808".toList Int64.minValue.toInt := by
    have hread : splitInteger "-9223372036854775808".toList =
        some ("-9223372036854775808".toList, []) := by decide
    exact hasValue_of_splitInteger hread
  have hhex : HasValue "-0X8000000000000000".toList Int64.minValue.toInt := by
    have hread : splitInteger "-0X8000000000000000".toList =
        some ("-0X8000000000000000".toList, []) := by decide
    exact hasValue_of_splitInteger hread
  exact ⟨hdecimal, hhex, ((readsNumber _).2 _ hdecimal).least rfl,
    ((readsNumber _).2 _ hhex).least rfl⟩

example : integerIn128 "9223372036854775808".toList = report .outOfRange :=
  rfl

example : integerIn128 "0x80000000000000000000000000000000".toList = report .tooLarge :=
  rfl

end MessageSchema.Source
