import MessageSchema.Proofs.Protocol.Valid

/-!
# Identifiers put together

With word characters behind it (`isIdentifier_append`), with another identifier behind it
(`isCIdentifier_append`) and in capital letters (`isIdentifier_upperAscii`), a text is an identifier
just if it was one, the empty text apart.
-/

namespace MessageSchema.Text

variable {a b s : String} {c : Char}

theorem isIdentifier_empty : isIdentifier "" = false :=
  rfl

/-- With word characters behind it a text is an identifier as it was before; the empty text is what
stands behind it. -/
theorem isIdentifier_append (hb : b.toList.all isWordChar = true) :
    isIdentifier (a ++ b) = true ↔ isIdentifier a = true ∨ a = "" ∧ isIdentifier b = true := by
  by_cases ha : a = ""
  · subst ha
    simp [isIdentifier_empty]
  · have hne : a.toList ≠ [] := fun hnil => ha (by simpa using hnil)
    obtain ⟨first, rest, hchars⟩ := List.exists_cons_of_ne_nil hne
    simp [isIdentifier, isIdentifierChars, hchars, List.all_append, hb, ha]

/-- With an identifier behind it a text is an identifier if it is empty or one itself. -/
theorem isCIdentifier_append (hb : IsCIdentifier b) :
    IsCIdentifier (a ++ b) ↔ a = "" ∨ IsCIdentifier a := by
  have hident := isIdentifier_iff.mpr hb
  have hword : b.toList.all isWordChar = true :=
    List.all_eq_true.mpr (isWordChar_of_isIdentifierChars hident)
  rw [← isIdentifier_iff, isIdentifier_append hword, and_iff_left hident, or_comm, isIdentifier_iff]

theorem IsCIdentifier.ne_empty (h : IsCIdentifier s) : s ≠ "" := by
  rintro rfl
  obtain ⟨_, _, hchars, -⟩ := h
  cases hchars

/-! ## Capital letters -/

/-- A small letter has its capital letter 32 codes in front of it. -/
theorem toNat_toUpper (h : 97 ≤ c.toNat ∧ c.toNat ≤ 122) : c.toUpper.toNat + 32 = c.toNat := by
  have hsmall : 'a'.val ≤ c.val ∧ c.val ≤ 'z'.val := h
  have hupper : c.toUpper.val = c.val + ('A'.val - 'a'.val) := by
    show (if h : _ then _ else _ : Char).val = _
    rw [dif_pos hsmall]
  have hoffset : ('A'.val - 'a'.val).toNat = 2 ^ 32 - 32 := rfl
  have hlt := c.val.toNat_lt
  have hcode : c.toUpper.toNat = (c.val.toNat + (2 ^ 32 - 32)) % 2 ^ 32 := by
    rw [← hoffset, ← UInt32.toNat_add, ← hupper]
    rfl
  have hc : c.toNat = c.val.toNat := rfl
  omega

theorem toUpper_eq_self (h : ¬ (97 ≤ c.toNat ∧ c.toNat ≤ 122)) : c.toUpper = c := by
  show (if h : _ then _ else _ : Char) = _
  exact dif_neg h

theorem isWordStart_iff_codes : isWordStart c = true ↔ 65 ≤ c.toNat ∧ c.toNat ≤ 90 ∨
    97 ≤ c.toNat ∧ c.toNat ≤ 122 ∨ c.toNat = 95 := by
  have hunderscore : c = '_' ↔ c.toNat = 95 := ⟨fun h => h ▸ rfl, fun h => Char.toNat_inj.mp h⟩
  rw [isWordStart_iff, hunderscore, IsLetter, or_assoc]
  exact Iff.rfl

theorem isWordStart_toUpper (c : Char) : isWordStart c.toUpper = isWordStart c := by
  by_cases h : 97 ≤ c.toNat ∧ c.toNat ≤ 122
  · have hcode := toNat_toUpper h
    rw [Bool.eq_iff_iff, isWordStart_iff_codes, isWordStart_iff_codes]
    omega
  · rw [toUpper_eq_self h]

theorem isWordChar_toUpper (c : Char) : isWordChar c.toUpper = isWordChar c := by
  by_cases h : 97 ≤ c.toNat ∧ c.toNat ≤ 122
  · have hcode := toNat_toUpper h
    rw [Bool.eq_iff_iff, isWordChar_iff, isWordChar_iff]
    omega
  · rw [toUpper_eq_self h]

/-- A text in capital letters is an identifier just if it was one before. -/
theorem isIdentifier_upperAscii (s : String) : isIdentifier (upperAscii s) = isIdentifier s := by
  rw [isIdentifier, isIdentifier, upperAscii, String.toList_ofList]
  rcases s.toList with _ | ⟨first, rest⟩
  · rfl
  · rw [List.map_cons, isIdentifierChars, isIdentifierChars, isWordStart_toUpper, List.all_map]
    simp only [Function.comp_def, isWordChar_toUpper]

theorem upperAscii_eq_empty : upperAscii s = "" ↔ s = "" := by
  rw [upperAscii, ← String.toList_inj, ← String.toList_inj]
  simp

end MessageSchema.Text
