import MessageSchema.Memory.Scalar
import MessageSchema.Proofs.Text
import MessageSchema.Text

/-!
# The scalars of a data model

`DataModel.Has m s`: the size of `s` is one that a scalar can have, its alignment follows from its
size, and its kind has scalars of that size. Every type that a data model knows is one
(`has_of_scalar?`), and so are the types of the envelope (`has_tag`, `has_sizeType`). Types that are
not pointers are spelled with words only (`isWordChar_of_scalar?`).

All alignments are powers of two, so the larger of two is a multiple of the other.
-/

namespace MessageSchema.Memory

open Text

/-- Of two powers of two the larger one is a multiple of the other. -/
theorem dvd_of_isPowerOfTwo {a b : Nat} (ha : a.isPowerOfTwo) (hb : b.isPowerOfTwo) (h : a ≤ b) :
    a ∣ b := by
  obtain ⟨i, rfl⟩ := ha
  obtain ⟨j, rfl⟩ := hb
  exact Nat.pow_dvd_pow 2 ((Nat.pow_le_pow_iff_right (by decide)).mp h)

theorem isPowerOfTwo_max {a b : Nat} (ha : a.isPowerOfTwo) (hb : b.isPowerOfTwo) :
    (max a b).isPowerOfTwo := by
  rcases Nat.le_total a b with h | h
  · rwa [Nat.max_eq_right h]
  · rwa [Nat.max_eq_left h]

/-- The arithmetic types are spelled with words and spaces. -/
theorem isWordChar_of_arithmeticType? {spelling : List Char} {found : ScalarKind × Extent}
    (h : arithmeticType? (String.ofList spelling) = some found) {c : Char} (hc : c ∈ spelling) :
    isWordChar c = true ∨ c = ' ' := by
  obtain ⟨⟨kind, extent, spellings⟩, hfind, -⟩ := Option.map_eq_some_iff.mp h
  have hspelling : String.ofList spelling ∈ spellings := by
    simpa using List.find?_some hfind
  have hspelled : ∀ t ∈ arithmeticTypes, ∀ spelling ∈ t.2.2,
      spelling.toList.all (fun c => isWordChar c || c == ' ') = true := by
    decide
  have hall := hspelled _ (List.mem_of_find?_eq_some hfind) _ hspelling
  rw [String.toList_ofList] at hall
  simpa using List.all_eq_true.mp hall c hc

namespace DataModel

/-- A scalar that a C type has on the data model. -/
structure Has (m : DataModel) (s : Scalar) : Prop where
  size : s.size = 1 ∨ s.size = 2 ∨ s.size = 4 ∨ s.size = 8
  align : s.align = min s.size m.maxAlign
  float : s.kind = .float → s.size = 4 ∨ s.size = 8
  bool : s.kind = .bool → s.size = 1

variable {m : DataModel} {s : Scalar}

theorem Has.size_pos (h : m.Has s) : 0 < s.size := by
  have := h.size
  omega

/-- No scalar has more than eight bytes. -/
theorem Has.size_le (h : m.Has s) : s.size ≤ 8 := by
  have := h.size
  omega

theorem Has.align_le (h : m.Has s) : s.align ≤ 8 := by
  have hsize := h.size_le
  rw [h.align]
  exact Nat.le_trans (Nat.min_le_left _ _) hsize

/-- Alignments are powers of two. -/
theorem Has.isPowerOfTwo_align (h : m.Has s) : s.align.isPowerOfTwo := by
  rw [h.align]
  obtain hs | hs | hs | hs := h.size <;> rw [hs] <;> cases m <;> decide

theorem Has.align_pos (h : m.Has s) : 0 < s.align :=
  Nat.pos_of_isPowerOfTwo h.isPowerOfTwo_align

theorem has_tag (m : DataModel) : m.Has m.tag := by
  cases m <;> constructor <;> decide

theorem has_sizeType (m : DataModel) : m.Has m.sizeType := by
  cases m <;> constructor <;> decide

theorem has_of_mem_arithmeticTypes (m : DataModel) {t : ScalarKind × Extent × List String}
    (h : t ∈ arithmeticTypes) : m.Has ⟨t.1, m.extent t.2.1, min (m.extent t.2.1) m.maxAlign⟩ := by
  simp only [arithmeticTypes, List.mem_cons, List.not_mem_nil, or_false] at h
  rcases h with rfl | rfl | rfl | rfl | rfl | rfl | rfl | rfl | rfl | rfl | rfl | rfl | rfl <;>
    cases m <;> constructor <;> simp [extent, wordSize]

/-- The scalar of a type is one of the data model. -/
theorem has_of_scalar? {type : String} (h : m.scalar? type = some s) : m.Has s := by
  simp only [scalar?] at h
  split at h
  · cases h
    cases m <;> constructor <;> decide
  · obtain ⟨found, hfound, rfl⟩ := Option.map_eq_some_iff.mp h
    obtain ⟨t, ht, rfl⟩ := Option.map_eq_some_iff.mp hfound
    exact has_of_mem_arithmeticTypes m (List.mem_of_find?_eq_some ht)

/-- The spelling of an arithmetic type consists of words with blank space between them. -/
theorem isWordChar_of_scalar? {type : String} (h : m.scalar? type = some s)
    (hkind : s.kind ≠ .pointer) {c : Char} (hc : c ∈ type.toList) (hblank : isBlank c = false) :
    isWordChar c = true := by
  simp only [scalar?] at h
  split at h
  · obtain rfl := Option.some.inj h
    exact absurd rfl hkind
  obtain ⟨found, hfound, -⟩ := Option.map_eq_some_iff.mp h
  obtain ⟨w, hw, hcw⟩ := exists_word hc hblank
  by_cases hqualifier : w = "const".toList ∨ w = "volatile".toList
  · have hletters : w.all isWordChar = true := by
      rcases hqualifier with rfl | rfl <;> rfl
    exact List.all_eq_true.mp hletters c hcw
  · have hkept : w ∈ typeWords type := List.mem_filter.mpr ⟨hw, by simpa using hqualifier⟩
    rcases isWordChar_of_arithmeticType? hfound (mem_intercalate hkept hcw) with hword | rfl
    · exact hword
    · exact absurd hblank (by decide)

end DataModel

end MessageSchema.Memory
