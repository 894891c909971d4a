import Mathlib.Order.Bounds.Defs
import MessageSchema.Proofs.Except
import MessageSchema.Proofs.Memory.Bytes
import MessageSchema.Proofs.Memory.Scalar
import MessageSchema.Proofs.Protocol.Valid

/-!
# Where the members of a record lie

`RecordLayout.FollowsC e r` says of a record behind the envelope `e` what the rules of C ask for:
the members stand in order and apart from each other, each at a multiple of its alignment and with
no more padding in front of it than that needs, and the size of the record is the least that holds
all of it and is a multiple of its alignment. Main statement: `followsC_of_compute`.

- **Rounding up** (`alignUp`): its bounds, and that it gives the least multiple that will do.
- **Members** (`Placed`): what holds of the members placed so far; one more member keeps it
  (`Placed.snoc`).
- **Placement** (`Placement.Sound`): the invariant of the loop over the fields
  (`Placement.sound_addField`, `Placement.sound_addFields`), with the alignment of the record.
- **Records** (`RecordLayout.Sound`, `RecordLayout.DeclaredBy`): what the placement says of a
  record, and which message it is the record of.
-/

namespace MessageSchema.Memory

section AlignUp

variable {offset align n : Nat}

theorem dvd_alignUp (offset align : Nat) : align ∣ alignUp offset align :=
  Nat.dvd_mul_left _ _

/-- Aligning goes up, never down. -/
theorem le_alignUp (h : 0 < align) : offset ≤ alignUp offset align := by
  have hm := Nat.mod_lt (offset + align - 1) h
  have hd := Nat.div_add_mod' (offset + align - 1) align
  unfold alignUp
  omega

/-- And by less than the alignment. -/
theorem alignUp_lt (h : 0 < align) : alignUp offset align < offset + align := by
  have hd := Nat.div_mul_le_self (offset + align - 1) align
  unfold alignUp
  omega

/-- No smaller multiple is large enough. -/
theorem alignUp_le (h : 0 < align) (hn : offset ≤ n) (hd : align ∣ n) :
    alignUp offset align ≤ n := by
  obtain ⟨k, rfl⟩ := hd
  have hlt : offset + align - 1 < (k + 1) * align := by
    rw [Nat.add_mul, Nat.mul_comm k]
    omega
  have hk : (offset + align - 1) / align ≤ k := Nat.le_of_lt_succ (Nat.div_lt_of_lt_mul
    (by rwa [Nat.mul_comm]))
  unfold alignUp
  rw [Nat.mul_comm align]
  exact Nat.mul_le_mul_right align hk

end AlignUp

/-- The bytes of the discriminant. -/
def EnvelopeLayout.tagRegion (e : EnvelopeLayout) : Region :=
  ⟨e.tagOffset, e.tag.size⟩

/-- The bytes of the size. -/
def EnvelopeLayout.sizeRegion (e : EnvelopeLayout) : Region :=
  ⟨e.sizeOffset, e.size.size⟩

/-- The bytes of a member; for a tail those of its first element. -/
def MemberLayout.region (f : MemberLayout) : Region :=
  ⟨f.offset, f.scalar.size⟩

/-- The first byte behind members that follow `header` bytes. -/
def endOfMembers (header : Nat) (members : List MemberLayout) : Nat :=
  (members.getLast?.map (·.region.stop)).getD header

@[simp] theorem endOfMembers_nil (header : Nat) : endOfMembers header [] = header :=
  rfl

@[simp] theorem endOfMembers_append_singleton (header : Nat) (members : List MemberLayout)
    (f : MemberLayout) : endOfMembers header (members ++ [f]) = f.region.stop := by
  simp [endOfMembers]

/-! ## Members one behind the other -/

/-- What holds of the items before the last one and of that one. -/
theorem forall_mem_snoc {α : Type} {P : α → Prop} {xs : List α} {a : α} :
    (∀ x ∈ xs ++ [a], P x) ↔ (∀ x ∈ xs, P x) ∧ P a := by
  rw [List.forall_mem_append, List.forall_mem_singleton]

/-- Members in order behind `header` bytes, each as near to the one before it as its alignment
allows. -/
structure Placed (header : Nat) (members : List MemberLayout) : Prop where
  ordered : members.Pairwise (·.region.Before ·.region)
  behind : ∀ f ∈ members, header ≤ f.offset
  ends : ∀ f ∈ members, f.region.stop ≤ endOfMembers header members
  aligned : ∀ f ∈ members, f.scalar.align ∣ f.offset
  gap : ∀ before f after, members = before ++ f :: after →
    endOfMembers header before ≤ f.offset ∧
      f.offset < endOfMembers header before + f.scalar.align

namespace Placed

variable {header : Nat} {members : List MemberLayout} {f : MemberLayout}

theorem nil (header : Nat) : Placed header [] := by
  constructor <;> simp

/-- Members are placed behind the header. -/
theorem le_endOfMembers (h : Placed header members) : header ≤ endOfMembers header members := by
  rcases List.eq_nil_or_concat' members with rfl | ⟨before, f, rfl⟩
  · exact Nat.le_refl _
  · calc header ≤ f.region.start := h.behind f (by simp)
      _ ≤ f.region.stop := Nat.le_add_right _ _
      _ ≤ endOfMembers header (before ++ [f]) := h.ends f (by simp)

/-- A member at the next multiple of its alignment behind members that are placed is placed. -/
theorem snoc (h : Placed header members) (hpos : 0 < f.scalar.align)
    (hf : f.offset = alignUp (endOfMembers header members) f.scalar.align) :
    Placed header (members ++ [f]) := by
  have hle : endOfMembers header members ≤ f.offset := hf ▸ le_alignUp hpos
  have hend : ∀ g ∈ members, g.region.Before f.region := fun g hg =>
    Nat.le_trans (h.ends g hg) hle
  refine ⟨?_, ?_, ?_, ?_, ?_⟩
  · refine List.pairwise_append.mpr ⟨h.ordered, List.pairwise_singleton _ _, ?_⟩
    intro g hg k hk
    rw [List.mem_singleton.mp hk]
    exact hend g hg
  · exact forall_mem_snoc.mpr ⟨h.behind, Nat.le_trans h.le_endOfMembers hle⟩
  · rw [endOfMembers_append_singleton]
    refine forall_mem_snoc.mpr ⟨fun g hg => ?_, Nat.le_refl _⟩
    exact Nat.le_trans (hend g hg) (Nat.le_add_right _ _)
  · exact forall_mem_snoc.mpr ⟨h.aligned, hf ▸ dvd_alignUp _ _⟩
  · intro before g after hsplit
    -- The member in question is the new one, or one of those before it.
    rcases List.eq_nil_or_concat' after with rfl | ⟨after, k, rfl⟩
    · obtain ⟨rfl, hg⟩ := List.append_inj' hsplit rfl
      cases hg
      exact ⟨hle, hf ▸ alignUp_lt hpos⟩
    · rw [← List.cons_append, ← List.append_assoc] at hsplit
      exact h.gap before g after (List.append_inj' hsplit rfl).1

end Placed

/-! ## Placing the members of a record -/

@[simp] theorem EnvelopeLayout.tag_ofModel (m : DataModel) :
    (EnvelopeLayout.ofModel m).tag = m.tag :=
  rfl

@[simp] theorem EnvelopeLayout.size_ofModel (m : DataModel) :
    (EnvelopeLayout.ofModel m).size = m.sizeType :=
  rfl

theorem EnvelopeLayout.isPowerOfTwo_align (m : DataModel) :
    (EnvelopeLayout.ofModel m).align.isPowerOfTwo :=
  isPowerOfTwo_max m.has_tag.isPowerOfTwo_align m.has_sizeType.isPowerOfTwo_align

/-- The discriminant, the size and the first member lie one behind the other. -/
theorem EnvelopeLayout.regions_ordered (m : DataModel) :
    (EnvelopeLayout.ofModel m).tagRegion.Before (EnvelopeLayout.ofModel m).sizeRegion ∧
      (EnvelopeLayout.ofModel m).sizeRegion.stop = (EnvelopeLayout.ofModel m).headerSize :=
  ⟨le_alignUp m.has_sizeType.align_pos, rfl⟩

namespace Placement

/-- What holds of a placement on a data model after any number of fields. -/
structure Sound (m : DataModel) (p : Placement) : Prop where
  placed : Placed (EnvelopeLayout.ofModel m).headerSize p.members
  offset : p.offset = endOfMembers (EnvelopeLayout.ofModel m).headerSize p.members
  scalars : ∀ f ∈ p.members, m.scalar? f.type = some f.scalar
  isPowerOfTwo_align : p.align.isPowerOfTwo
  envelope_le : (EnvelopeLayout.ofModel m).align ≤ p.align
  align_le : ∀ f ∈ p.members, f.scalar.align ≤ p.align

variable {m : DataModel} {message name type : String} {p q : Placement} {s : Scalar}

/-- A member can be placed just if its type has a scalar. -/
theorem scalarOf_eq_ok : scalarOf m message name type = .ok s ↔ m.scalar? type = some s := by
  unfold scalarOf
  split <;> simp_all

/-- Before the first field, a placement is sound. -/
theorem Sound.empty (m : DataModel) :
    Sound m ⟨[], (EnvelopeLayout.ofModel m).headerSize, (EnvelopeLayout.ofModel m).align⟩ where
  placed := Placed.nil _
  offset := rfl
  scalars := by simp
  isPowerOfTwo_align := EnvelopeLayout.isPowerOfTwo_align m
  envelope_le := Nat.le_refl _
  align_le := by simp

/-- The member that comes next is placed, whether space is taken for it or not. -/
theorem Sound.placed_next (h : Sound m p) (hs : m.scalar? type = some s) (name : String) :
    Placed (EnvelopeLayout.ofModel m).headerSize
      (p.members ++ [⟨name, type, s, p.nextOffset s⟩]) :=
  h.placed.snoc (DataModel.has_of_scalar? hs).align_pos (by rw [← h.offset]; rfl)

/-- A further field keeps it sound. -/
theorem sound_addField {f : Field} (h : Sound m p) (hq : addField m message p f = .ok q) :
    Sound m q := by
  obtain ⟨s, hs, hq⟩ := bind_eq_ok.mp hq
  cases hq
  have hs := scalarOf_eq_ok.mp hs
  refine ⟨h.placed_next hs _, by simp [MemberLayout.region, Region.stop], ?_,
    isPowerOfTwo_max h.isPowerOfTwo_align (DataModel.has_of_scalar? hs).isPowerOfTwo_align,
    Nat.le_trans h.envelope_le (Nat.le_max_left _ _), ?_⟩
  · exact forall_mem_snoc.mpr ⟨h.scalars, hs⟩
  · refine forall_mem_snoc.mpr ⟨fun g hg => ?_, Nat.le_max_right _ _⟩
    exact Nat.le_trans (h.align_le g hg) (Nat.le_max_left _ _)

/-- The members are placed in the order in which they are declared. -/
theorem declared_addFields {fields : List Field}
    (hq : fields.foldlM (addField m message) p = .ok q) :
    q.members.map (fun f => (f.name, f.type)) =
      p.members.map (fun f => (f.name, f.type)) ++ fields.map fun f => (f.name, f.type) := by
  induction fields generalizing p with
  | nil => cases hq; simp
  | cons f fields ih =>
    obtain ⟨next, hnext, hq⟩ := bind_eq_ok.mp hq
    obtain ⟨s, -, hnext⟩ := bind_eq_ok.mp hnext
    cases hnext
    simp [ih hq]

theorem sound_addFields {fields : List Field} (h : Sound m p)
    (hq : fields.foldlM (addField m message) p = .ok q) : Sound m q :=
  foldlM_preserves (fun _ _ _ hb hc => sound_addField hb hc) h hq

end Placement

namespace RecordLayout

/-- The fixed fields and then the tail. -/
def members (r : RecordLayout) : List MemberLayout :=
  r.fields ++ r.tail.toList

theorem members_of_no_tail {r : RecordLayout} (ht : r.tail = none) : r.members = r.fields := by
  simp [members, ht]

theorem members_of_tail {r : RecordLayout} {t : MemberLayout} (ht : t ∈ r.tail) :
    r.members = r.fields ++ [t] := by
  simp [members, Option.mem_def.mp ht]

theorem mem_members_of_fields {r : RecordLayout} {f : MemberLayout} (hf : f ∈ r.fields) :
    f ∈ r.members :=
  List.mem_append_left _ hf

theorem mem_members_of_tail {r : RecordLayout} {t : MemberLayout} (ht : t ∈ r.tail) :
    t ∈ r.members :=
  List.mem_append_right _ (Option.mem_toList.mpr ht)

/-- The regions that every record of a kind has: the envelope's and those of the fixed fields. -/
def fixedRegions (e : EnvelopeLayout) (r : RecordLayout) : List Region :=
  e.tagRegion :: e.sizeRegion :: r.fields.map (·.region)

/-- The layout that the rules of C ask for. -/
structure FollowsC (e : EnvelopeLayout) (r : RecordLayout) : Prop where
  ordered : (r.fixedRegions e).Pairwise Region.Before
  behind_header : ∀ f ∈ r.fields, e.headerSize ≤ f.offset
  tail_behind : ∀ t ∈ r.tail, endOfMembers e.headerSize r.fields ≤ t.offset
  inside : ∀ g ∈ r.fixedRegions e, g.stop ≤ r.structuralSize
  tail_inside : ∀ t ∈ r.tail, t.offset ≤ r.structuralSize
  aligned : ∀ f ∈ r.members, f.scalar.align ∣ f.offset
  gap : ∀ before f after, r.members = before ++ f :: after →
    endOfMembers e.headerSize before ≤ f.offset ∧
      f.offset - endOfMembers e.headerSize before < f.scalar.align
  envelope_le : e.align ≤ r.align
  align_dvd : ∀ s ∈ e.tag :: e.size :: r.members.map (·.scalar), s.align ∣ r.align
  isLeast : IsLeast {n | r.align ∣ n ∧ endOfMembers e.headerSize r.fields ≤ n ∧
    ∀ t ∈ r.tail, t.offset ≤ n} r.structuralSize

/-- Where the part of a record ends that does not depend on the number of tail elements, without
padding. -/
def contentEnd (header : Nat) (r : RecordLayout) : Nat :=
  (r.tail.map (·.offset)).getD (endOfMembers header r.fields)

/-- What the placement of its members says of a record on a data model. -/
structure Sound (m : DataModel) (r : RecordLayout) : Prop where
  placed : Placed (EnvelopeLayout.ofModel m).headerSize r.fields
  placed_members : Placed (EnvelopeLayout.ofModel m).headerSize r.members
  scalars : ∀ f ∈ r.members, m.scalar? f.type = some f.scalar
  isPowerOfTwo_align : r.align.isPowerOfTwo
  envelope_le : (EnvelopeLayout.ofModel m).align ≤ r.align
  align_le : ∀ f ∈ r.members, f.scalar.align ≤ r.align
  structuralSize : r.structuralSize =
    alignUp (r.contentEnd (EnvelopeLayout.ofModel m).headerSize) r.align

variable {m : DataModel} {e : TaggedMessage} {r : RecordLayout}

/-- A record is what becomes of the placement of its fields, and of its tail if it has one. -/
theorem ofTagged_eq_ok (h : ofTagged m e = .ok r) :
    ∃ p : Placement,
      e.message.fields.foldlM (Placement.addField m e.message.name)
        ⟨[], (EnvelopeLayout.ofModel m).headerSize, (EnvelopeLayout.ofModel m).align⟩ = .ok p ∧
      ((e.message.tail = none ∧ r = ⟨e.message.name, e.message.shortName, e.discriminant, p.members,
          none, alignUp p.offset p.align, p.align⟩) ∨
        ∃ t s, e.message.tail = some t ∧ m.scalar? t.elementType = some s ∧
          r = ⟨e.message.name, e.message.shortName, e.discriminant, p.members,
            some ⟨t.name, t.elementType, s, p.nextOffset s⟩,
            alignUp (p.nextOffset s) (max p.align s.align), max p.align s.align⟩) := by
  obtain ⟨p, hp, h⟩ := bind_eq_ok.mp h
  refine ⟨p, hp, ?_⟩
  split at h
  · rename_i ht
    cases h
    exact .inl ⟨ht, rfl⟩
  · rename_i t ht
    obtain ⟨s, hs, h⟩ := bind_eq_ok.mp h
    cases h
    exact .inr ⟨t, s, ht, Placement.scalarOf_eq_ok.mp hs, rfl⟩

/-- The layout of a message is sound. -/
theorem sound_of_ofTagged (h : ofTagged m e = .ok r) : r.Sound m := by
  obtain ⟨p, hp, ⟨-, rfl⟩ | ⟨t, s, -, hs, rfl⟩⟩ := ofTagged_eq_ok h
  · have hsound := Placement.sound_addFields (.empty m) hp
    refine ⟨hsound.placed, ?_, ?_, hsound.isPowerOfTwo_align, hsound.envelope_le, ?_, ?_⟩
    · rw [members_of_no_tail rfl]
      exact hsound.placed
    · rw [members_of_no_tail rfl]
      exact hsound.scalars
    · rw [members_of_no_tail rfl]
      exact hsound.align_le
    · simp [contentEnd, hsound.offset]
  · have hsound := Placement.sound_addFields (.empty m) hp
    refine ⟨hsound.placed, hsound.placed_next hs _, ?_,
      isPowerOfTwo_max hsound.isPowerOfTwo_align (DataModel.has_of_scalar? hs).isPowerOfTwo_align,
      Nat.le_trans hsound.envelope_le (Nat.le_max_left _ _), ?_, rfl⟩
    · exact forall_mem_snoc.mpr ⟨hsound.scalars, hs⟩
    · refine forall_mem_snoc.mpr ⟨fun f hf => ?_, Nat.le_max_right _ _⟩
      exact Nat.le_trans (hsound.align_le f hf) (Nat.le_max_left _ _)

/-- A record has the name, the discriminant and the members of a message, in the order in which the
message declares them. -/
structure DeclaredBy (r : RecordLayout) (e : TaggedMessage) : Prop where
  name : r.name = e.message.name
  discriminant : r.discriminant = e.discriminant
  fields : r.fields.map (fun f => (f.name, f.type)) =
    e.message.fields.map fun f => (f.name, f.type)
  tail : r.tail.map (fun t => (t.name, t.type)) =
    e.message.tail.map fun t => (t.name, t.elementType)

/-- The layout of a message has its members. -/
theorem declaredBy_of_ofTagged (h : ofTagged m e = .ok r) : r.DeclaredBy e := by
  obtain ⟨p, hp, ⟨ht, rfl⟩ | ⟨t, s, ht, -, rfl⟩⟩ := ofTagged_eq_ok h
  · exact ⟨rfl, rfl, Placement.declared_addFields hp, by rw [ht]; rfl⟩
  · exact ⟨rfl, rfl, Placement.declared_addFields hp, by rw [ht]; rfl⟩

theorem DeclaredBy.fieldNames (h : r.DeclaredBy e) :
    r.fields.map (·.name) = e.message.fields.map (·.name) := by
  simpa [Function.comp_def] using congrArg (List.map Prod.fst) h.fields

theorem DeclaredBy.members (h : r.DeclaredBy e) :
    r.members.map (fun f => (f.name, f.type)) =
      e.message.fields.map (fun f => (f.name, f.type)) ++
        (e.message.tail.map fun t => (t.name, t.elementType)).toList := by
  rw [RecordLayout.members, List.map_append, h.fields, ← h.tail, Option.toList_map]

theorem DeclaredBy.memberNames (h : r.DeclaredBy e) :
    r.members.map (·.name) = e.message.memberNames := by
  have := congrArg (List.map Prod.fst) h.members
  simpa [Function.comp_def, Message.memberNames, Option.toList_map] using this

theorem DeclaredBy.memberTypes (h : r.DeclaredBy e) :
    r.members.map (·.type) = e.message.memberTypes := by
  have := congrArg (List.map Prod.snd) h.members
  simpa [Function.comp_def, Message.memberTypes, Option.toList_map] using this

namespace Sound

theorem has (h : r.Sound m) {f : MemberLayout} (hf : f ∈ r.members) : m.Has f.scalar :=
  DataModel.has_of_scalar? (h.scalars f hf)

theorem align_pos (h : r.Sound m) : 0 < r.align :=
  Nat.pos_of_isPowerOfTwo h.isPowerOfTwo_align

theorem tail_behind (h : r.Sound m) {t : MemberLayout} (ht : t ∈ r.tail) :
    endOfMembers (EnvelopeLayout.ofModel m).headerSize r.fields ≤ t.offset := by
  exact (h.placed_members.gap _ _ _ (members_of_tail ht)).1

theorem endOfMembers_le_contentEnd (h : r.Sound m) :
    endOfMembers (EnvelopeLayout.ofModel m).headerSize r.fields ≤
      r.contentEnd (EnvelopeLayout.ofModel m).headerSize := by
  unfold contentEnd
  rcases ht : r.tail with _ | t
  · exact Nat.le_refl _
  · exact h.tail_behind ht

theorem contentEnd_le (h : r.Sound m) :
    r.contentEnd (EnvelopeLayout.ofModel m).headerSize ≤ r.structuralSize :=
  h.structuralSize ▸ le_alignUp h.align_pos

theorem endOfMembers_le (h : r.Sound m) :
    endOfMembers (EnvelopeLayout.ofModel m).headerSize r.fields ≤ r.structuralSize :=
  Nat.le_trans h.endOfMembers_le_contentEnd h.contentEnd_le

theorem headerSize_le (h : r.Sound m) :
    (EnvelopeLayout.ofModel m).headerSize ≤ r.structuralSize :=
  Nat.le_trans h.placed.le_endOfMembers h.endOfMembers_le

theorem tail_inside (h : r.Sound m) {t : MemberLayout} (ht : t ∈ r.tail) :
    t.offset ≤ r.structuralSize := by
  have := h.contentEnd_le
  rwa [contentEnd, Option.mem_def.mp ht] at this

/-- The fixed members stand one behind the other. -/
theorem regions_ordered (h : r.Sound m) :
    (r.fixedRegions (EnvelopeLayout.ofModel m)).Pairwise Region.Before := by
  obtain ⟨htag, hsize⟩ := EnvelopeLayout.regions_ordered m
  have hfields : ∀ f ∈ r.fields, (EnvelopeLayout.ofModel m).sizeRegion.Before f.region :=
    fun f hf => Nat.le_trans (Nat.le_of_eq hsize) (h.placed.behind f hf)
  refine List.pairwise_cons.mpr ⟨?_, List.pairwise_cons.mpr ⟨?_, ?_⟩⟩
  · intro g hg
    rcases List.mem_cons.mp hg with rfl | hg
    · exact htag
    · obtain ⟨f, hf, rfl⟩ := List.mem_map.mp hg
      exact Nat.le_trans htag (Nat.le_trans (Nat.le_add_right _ _) (hfields f hf))
  · intro g hg
    obtain ⟨f, hf, rfl⟩ := List.mem_map.mp hg
    exact hfields f hf
  · exact List.pairwise_map.mpr h.placed.ordered

/-- The envelope and the fixed fields end before the tail. -/
theorem regions_le_endOfMembers (h : r.Sound m) :
    ∀ g ∈ r.fixedRegions (EnvelopeLayout.ofModel m),
      g.stop ≤ endOfMembers (EnvelopeLayout.ofModel m).headerSize r.fields := by
  obtain ⟨htag, hsize⟩ := EnvelopeLayout.regions_ordered m
  have hstop := Nat.le_trans (Nat.le_of_eq hsize) h.placed.le_endOfMembers
  intro g hg
  rcases List.mem_cons.mp hg with rfl | hg
  · exact Nat.le_trans htag (Nat.le_trans (Nat.le_add_right _ _) hstop)
  rcases List.mem_cons.mp hg with rfl | hg
  · exact hstop
  · obtain ⟨f, hf, rfl⟩ := List.mem_map.mp hg
    exact h.placed.ends f hf

/-- The fixed members stand inside the record. -/
theorem regions_inside (h : r.Sound m) :
    ∀ g ∈ r.fixedRegions (EnvelopeLayout.ofModel m), g.stop ≤ r.structuralSize :=
  fun g hg => Nat.le_trans (h.regions_le_endOfMembers g hg) h.endOfMembers_le

theorem align_dvd (h : r.Sound m) {s : Scalar} (hs : m.Has s) (hle : s.align ≤ r.align) :
    s.align ∣ r.align :=
  dvd_of_isPowerOfTwo hs.isPowerOfTwo_align h.isPowerOfTwo_align hle

/-- No smaller size holds all members and keeps the alignment. -/
theorem isLeast (h : r.Sound m) :
    IsLeast {n | r.align ∣ n ∧ endOfMembers (EnvelopeLayout.ofModel m).headerSize r.fields ≤ n ∧
      ∀ t ∈ r.tail, t.offset ≤ n} r.structuralSize := by
  refine ⟨⟨?_, h.endOfMembers_le, fun t ht => h.tail_inside ht⟩, ?_⟩
  · rw [h.structuralSize]
    exact dvd_alignUp _ _
  · rintro n ⟨hdvd, hfields, htail⟩
    rw [h.structuralSize]
    refine alignUp_le h.align_pos ?_ hdvd
    unfold contentEnd
    rcases ht : r.tail with _ | t
    · exact hfields
    · exact htail t ht

/-- A sound layout is the one that C prescribes. -/
theorem followsC (h : r.Sound m) : r.FollowsC (EnvelopeLayout.ofModel m) where
  ordered := h.regions_ordered
  behind_header := h.placed.behind
  tail_behind _ := h.tail_behind
  inside := h.regions_inside
  tail_inside _ := h.tail_inside
  aligned := h.placed_members.aligned
  gap before f after hsplit := by
    have := h.placed_members.gap before f after hsplit
    omega
  envelope_le := h.envelope_le
  align_dvd s hs := by
    rcases List.mem_cons.mp hs with rfl | hs
    · exact h.align_dvd m.has_tag (Nat.le_trans (Nat.le_max_left _ _) h.envelope_le)
    rcases List.mem_cons.mp hs with rfl | hs
    · exact h.align_dvd m.has_sizeType (Nat.le_trans (Nat.le_max_right _ _) h.envelope_le)
    · obtain ⟨f, hf, rfl⟩ := List.mem_map.mp hs
      exact h.align_dvd (h.has hf) (h.align_le f hf)
  isLeast := h.isLeast

end Sound

end RecordLayout

namespace ProtocolLayout

variable {p : Protocol} {m : DataModel} {order : ByteOrder} {l : ProtocolLayout}

/-- A layout of a protocol holds the layouts of its messages, in their order. -/
theorem compute_eq_ok (h : compute p m order = .ok l) :
    ∃ records, p.entries.mapM (RecordLayout.ofTagged m) = .ok records ∧
      l = ⟨m, order, .ofModel m, records⟩ := by
  obtain ⟨records, hrecords, h⟩ := bind_eq_ok.mp h
  cases h
  exact ⟨records, hrecords, rfl⟩

theorem envelope_of_compute (h : compute p m order = .ok l) : l.envelope = .ofModel m := by
  obtain ⟨_, -, rfl⟩ := compute_eq_ok h
  rfl

/-- Every record is that of an entry of the protocol. -/
theorem exists_entry (h : compute p m order = .ok l) {r : RecordLayout} (hr : r ∈ l.records) :
    ∃ e ∈ p.entries, RecordLayout.ofTagged m e = .ok r := by
  obtain ⟨_, hrecords, rfl⟩ := compute_eq_ok h
  exact exists_of_mem_mapM hrecords hr

/-- The records belong to the entries in order. -/
theorem ofTagged_of_mem_zip (h : compute p m order = .ok l) {e : TaggedMessage} {r : RecordLayout}
    (her : (e, r) ∈ p.entries.zip l.records) : RecordLayout.ofTagged m e = .ok r := by
  obtain ⟨_, hrecords, rfl⟩ := compute_eq_ok h
  exact (List.forall₂_iff_zip.mp (mapM_eq_ok.mp hrecords)).2 her

/-- All records of a protocol have sound layouts. -/
theorem sound_of_compute (h : compute p m order = .ok l) {r : RecordLayout} (hr : r ∈ l.records) :
    r.Sound m := by
  obtain ⟨_, -, he⟩ := exists_entry h hr
  exact RecordLayout.sound_of_ofTagged he

/-- In the layout of a resolved protocol the fields of a record have different names. -/
theorem nodup_fieldNames {policy : DiscriminantPolicy} {messages : List Message}
    (hp : Protocol.resolve policy messages = .ok p) (h : compute p m order = .ok l)
    {r : RecordLayout} (hr : r ∈ l.records) : (r.fields.map (·.name)).Nodup := by
  obtain ⟨e, he, hrecord⟩ := exists_entry h hr
  rw [(RecordLayout.declaredBy_of_ofTagged hrecord).fieldNames]
  exact (List.nodup_append.mp (Protocol.nodup_memberNames hp he)).1

theorem fitsInt_discriminant {policy : DiscriminantPolicy} {messages : List Message}
    (hp : Protocol.resolve policy messages = .ok p) (h : compute p m order = .ok l)
    {r : RecordLayout} (hr : r ∈ l.records) : Protocol.fitsInt r.discriminant = true := by
  obtain ⟨e, he, hrecord⟩ := exists_entry h hr
  rw [(RecordLayout.declaredBy_of_ofTagged hrecord).discriminant]
  exact Protocol.fitsInt_of_resolve hp he

end ProtocolLayout

namespace Sample

/-- A message with fields of different sizes and a tail. -/
def message : Message where
  name := "V"
  shortName := "v"
  explicitValue := some 3
  fields := [.ofPair "char" "flag", .ofPair "short" "level", .ofPair "char" "mark"]
  tail := some ⟨"uint64_t", "items"⟩

/-- Its record on the data model that aligns no scalar to more than 4. -/
def record : RecordLayout where
  name := "V"
  shortName := "v"
  discriminant := 3
  fields := [⟨"flag", "char", ⟨.signed, 1, 1⟩, 8⟩, ⟨"level", "short", ⟨.signed, 2, 2⟩, 10⟩,
    ⟨"mark", "char", ⟨.signed, 1, 1⟩, 12⟩]
  tail := some ⟨"items", "uint64_t", ⟨.unsigned, 8, 4⟩, 16⟩
  structuralSize := 16
  align := 4

/-- The protocol of this message only. -/
def protocol : Protocol :=
  ⟨[⟨message, 3⟩]⟩

/-- Its layout. -/
def layout : ProtocolLayout :=
  ⟨.ilp32, .big, .ofModel .ilp32, [record]⟩

theorem compute_protocol : ProtocolLayout.compute protocol .ilp32 .big = .ok layout :=
  rfl

theorem record_mem : record ∈ layout.records :=
  List.mem_singleton_self record

end Sample

/-- Every record has the members that a message of the protocol declares, each with the scalar that
its type has on the data model, and they lie where the rules of C put them. -/
theorem followsC_of_compute {p : Protocol} {m : DataModel} {order : ByteOrder} {l : ProtocolLayout}
    {r : RecordLayout} (h : ProtocolLayout.compute p m order = .ok l) (hr : r ∈ l.records) :
    (∃ e ∈ p.entries, r.DeclaredBy e) ∧ (∀ f ∈ r.members, m.scalar? f.type = some f.scalar) ∧
      r.FollowsC l.envelope := by
  obtain ⟨e, he, hrecord⟩ := ProtocolLayout.exists_entry h hr
  have hs := RecordLayout.sound_of_ofTagged hrecord
  rw [ProtocolLayout.envelope_of_compute h]
  exact ⟨⟨e, he, RecordLayout.declaredBy_of_ofTagged hrecord⟩, hs.scalars, hs.followsC⟩

theorem followsC_sample :
    ProtocolLayout.compute Sample.protocol .ilp32 .big = .ok Sample.layout ∧
      Sample.record ∈ Sample.layout.records ∧ Sample.record.FollowsC Sample.layout.envelope :=
  ⟨Sample.compute_protocol, Sample.record_mem,
    (followsC_of_compute Sample.compute_protocol Sample.record_mem).2.2⟩

end MessageSchema.Memory
