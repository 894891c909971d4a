import MessageSchema.Proofs.Guarded.Basic
import MessageSchema.Proofs.Source.Meaning

/-!
# Literals digit by digit

`integerGuarded` reads the digits of an integer one by one and changes its sign within 128 bits;
`unescapeGuarded` goes through a text and looks behind each backslash. They break at a character
that is no digit, at a number without a negative, and at a backslash with nothing behind it. On
literals as the grammar has them they do what `integerOfLiteral` and `unescape` do
(`integerGuarded_eq`, `unescapeGuarded_eq`).
-/

namespace MessageSchema.Source

open Guarded

/-! ## Integers -/

/-- The value of a digit of the given base. -/
def digit? (base : Nat) (c : Char) : Option Nat :=
  if isHexDigit c && digitValue c < base then some (digitValue c) else none

/-- The number that digits stand for, if there is no character but these. -/
def digitsValue? (base : Nat) (digits : List Char) : Option Nat :=
  digits.foldlM (fun n c => (digit? base c).map (n * base + ·)) 0

/-- The number of up to 127 bits that digits stand for. -/
def numberGuarded (base : Nat) (digits : List Char) : Guarded IntegerFault Int :=
  if digits.isEmpty then fault .notDigits
  else do
    let n ← found .notDigits (digitsValue? base digits)
    if n ≥ twoPow 127 then report .tooLarge else return n

/-- The number that a magnitude stands for. -/
def magnitudeGuarded : List Char → Guarded IntegerFault Int
  | '0' :: 'x' :: digits => numberGuarded 16 digits
  | '0' :: 'X' :: digits => numberGuarded 16 digits
  | digits => numberGuarded 10 digits

/-- The negative of a number of 128 bits. -/
def negateGuarded (n : Int) : Guarded IntegerFault Int :=
  if n = -(twoPow 127 : Int) then fault .negationOverflow else .ok (-n)

/-- The number that an integer literal stands for. -/
def literalGuarded (literal : List Char) : Guarded IntegerFault Int := do
  let (negative, digits) := splitSign literal
  let magnitude ← magnitudeGuarded digits
  if negative then negateGuarded magnitude else return magnitude

/-- A number as an integer of 64 bits. -/
def fitGuarded (n : Int) : Guarded IntegerFault Int64 :=
  if -(twoPow 63 : Int) ≤ n ∧ n < twoPow 63 then .ok (Int64.ofInt n) else report .outOfRange

/-- `integerOfLiteral` with the digits read one by one. -/
def integerGuarded (literal : List Char) : Guarded IntegerFault Int64 := do
  let n ← literalGuarded literal
  fitGuarded n

variable {s text : List Char}

theorem digit?_eq {base d : Nat} {c : Char} (h : IsDigit d c) (hd : d < base) (hbase : base ≤ 16) :
    digit? base c = some d := by
  have hhex := (kind_of_isDigit h (by omega)).1
  rw [digit?, hhex, digitValue_of_isDigit h (by omega)]
  simp [hd]

/-- A numeral has a value. -/
theorem digitsValue?_eq {base n : Nat} (h : Numeral base s n) (hbase : base ≤ 16) :
    digitsValue? base s = some n := by
  induction h with
  | digit hd hc => simp [digitsValue?, digit?_eq hc hd hbase]
  | snoc _ hd hc ih =>
    rw [digitsValue?] at ih ⊢
    simp [List.foldlM_append, ih, digit?_eq hc hd hbase]

theorem numberGuarded_eq {base n : Nat} (h : Numeral base s n) (hbase : base ≤ 16) :
    numberGuarded base s = if n ≥ twoPow 127 then report .tooLarge else .ok (n : Int) := by
  rw [numberGuarded, if_neg (by simpa using h.ne_nil), digitsValue?_eq h hbase]
  rfl

theorem magnitudeGuarded_splitMark (s : List Char) :
    magnitudeGuarded s = numberGuarded (splitMark s).1 (splitMark s).2 := by
  fun_cases splitMark s with
  | case1 => rfl
  | case2 => rfl
  | case3 _ hlower hupper => exact magnitudeGuarded.eq_3 _ hlower hupper

/-- A number without a sign is read, or is too large. -/
theorem magnitudeGuarded_eq {n : Nat} (h : SpellsNumber s n) :
    magnitudeGuarded s = if n ≥ twoPow 127 then report .tooLarge else .ok (n : Int) := by
  obtain ⟨base, digits, hmark, hbase, hdigits⟩ := splitMark_of_spellsNumber h
  rw [magnitudeGuarded_splitMark, hmark]
  exact numberGuarded_eq hdigits hbase

/-- A magnitude is not below 0, so it has a negative. -/
theorem negateGuarded_eq (n : Nat) : negateGuarded n = .ok (-(n : Int)) := by
  have hpos : 0 < twoPow 127 := by decide
  exact if_neg (by omega)

/-- A number with a sign is read, or its magnitude is too large. -/
theorem literalGuarded_eq {n : Int} (h : SpellsInteger s n) :
    literalGuarded s = if n.natAbs ≥ twoPow 127 then report .tooLarge else .ok n := by
  cases h with
  | @unsigned s n h =>
    rw [literalGuarded, splitSign_of_spellsNumber h]
    show (magnitudeGuarded s >>= fun magnitude => pure magnitude) = _
    rw [magnitudeGuarded_eq h, Int.natAbs_natCast]
    split <;> rfl
  | @negative s n h =>
    show (magnitudeGuarded s >>= negateGuarded) = _
    rw [magnitudeGuarded_eq h, Int.natAbs_neg, Int.natAbs_natCast]
    split
    · rfl
    · exact negateGuarded_eq n

/-- The literal of an integer is made of digits. -/
theorem integerGuarded_eq {n : Int} (h : SpellsInteger s n) :
    integerGuarded s = guarded (integerOfLiteral s) := by
  obtain ⟨hvalue, hmagnitude⟩ := literalValue_of_spellsInteger h
  rw [integerGuarded, literalGuarded_eq h, integerOfLiteral, hvalue, hmagnitude]
  split
  · rfl
  · show fitGuarded n = guarded (if _ then _ else _)
    rw [fitGuarded]
    split <;> rfl

/-- `unescape` with a look behind each backslash. -/
def unescapeGuarded {ε : Type} : List Char → Guarded ε (List Char)
  | [] => .ok []
  | '\\' :: c :: cs => (unescapeGuarded cs).map (escaped c :: ·)
  | '\\' :: [] => fault .danglingBackslash
  | c :: cs => (unescapeGuarded cs).map (c :: ·)

/-- The content of a text has no backslash at its end. -/
theorem unescapeGuarded_eq {ε : Type} (h : SpellsText s text) :
    (unescapeGuarded s : Guarded ε _) = .ok (unescape s) := by
  induction h with
  | nil => rfl
  | plain _ hbackslash _ ih =>
    rw [unescapeGuarded.eq_4 _ _ (fun _ _ hc _ => hbackslash hc) (fun hc _ => hbackslash hc),
      unescape.eq_3 _ _ fun _ _ hc _ => hbackslash hc, ih]
    rfl
  | lineFeed _ ih | tab _ ih | null _ ih | escaped _ _ ih =>
    rw [unescapeGuarded, unescape, ih]
    rfl

example : unescapeGuarded ['a', '\\'] = (fault .danglingBackslash : Guarded TableError _) := rfl

end MessageSchema.Source
