import MessageSchema.Memory.Bytes

/-!
# Bytes and numbers in memory

- **Numbers** (`decode_encode`, `encode_decode`, `decode_lt`): the bytes of a number stand for it
  again, all bytes are those of the number they stand for, and that number needs no more of them.
- **One write** (`slice_overwrite`, `getElem?_overwrite`): a write inside the memory leaves its data
  in its own region and everything else as it was.
- **Many writes** (`overwriteAll`): writes to regions one behind the other leave the data of each in
  its region (`slice_overwriteAll`) and no trace elsewhere (`getElem?_overwriteAll`).
- **Two memories** (`AgreeOutside`): the same writes to memories that agree outside a region leave
  them so (`AgreeOutside.writeAll`).
-/

namespace MessageSchema.Memory

/-- A range of bytes. -/
structure Region where
  start : Nat
  size : Nat
deriving DecidableEq, Repr

namespace Region

/-- The first byte behind a region. -/
def stop (g : Region) : Nat :=
  g.start + g.size

/-- Whether a byte lies in a region. -/
def Contains (g : Region) (i : Nat) : Prop :=
  g.start ≤ i ∧ i < g.stop

/-- One region ends before another begins. -/
def Before (g k : Region) : Prop :=
  g.stop ≤ k.start

theorem Before.not_contains {g k : Region} (h : g.Before k) {i : Nat} (hi : g.Contains i) :
    ¬ k.Contains i := by
  unfold Before at h
  unfold Contains at *
  omega

end Region

/-! ## Numbers -/

theorem length_lowBytes (size n : Nat) : (lowBytes size n).length = size := by
  induction size generalizing n with
  | zero => rfl
  | succ size ih => simp [lowBytes, ih]

/-- A byte more is a factor of 256. -/
theorem twoPow_bytes_succ (size : Nat) : twoPow (8 * (size + 1)) = 256 * twoPow (8 * size) := by
  rw [show 8 * (size + 1) = 8 * size + 8 by omega]
  simp only [twoPow_succ]
  omega

/-- A number that fits its bytes is read back from them. -/
theorem numberOfLowBytes_lowBytes {size n : Nat} (h : n < twoPow (8 * size)) :
    numberOfLowBytes (lowBytes size n) = n := by
  induction size generalizing n with
  | zero => simp [twoPow_zero] at h; simp [lowBytes, numberOfLowBytes, h]
  | succ size ih =>
    rw [twoPow_bytes_succ] at h
    have hbyte : (UInt8.ofNat (n % 256)).toNat = n % 256 := by simp
    rw [lowBytes, numberOfLowBytes, ih (by omega), hbyte]
    omega

theorem numberOfLowBytes_lt (bytes : Bytes) :
    numberOfLowBytes bytes < twoPow (8 * bytes.length) := by
  induction bytes with
  | nil => exact twoPow_pos 0
  | cons b bytes ih =>
    have hb := b.toNat_lt
    rw [numberOfLowBytes, List.length_cons, twoPow_bytes_succ]
    omega

/-- Bytes are those of the number that they make. -/
theorem lowBytes_numberOfLowBytes (bytes : Bytes) :
    lowBytes bytes.length (numberOfLowBytes bytes) = bytes := by
  induction bytes with
  | nil => rfl
  | cons b bytes ih =>
    have hb := b.toNat_lt
    have hlow : (b.toNat + 256 * numberOfLowBytes bytes) % 256 = b.toNat := by omega
    have hhigh : (b.toNat + 256 * numberOfLowBytes bytes) / 256 = numberOfLowBytes bytes := by omega
    rw [List.length_cons, lowBytes, numberOfLowBytes, hlow, hhigh, ih, UInt8.ofNat_toNat]

namespace ByteOrder

@[simp] theorem length_encode (order : ByteOrder) (size n : Nat) :
    (order.encode size n).length = size := by
  cases order <;> simp [encode, length_lowBytes]

/-- The bytes of a number that fits stand for that number. -/
theorem decode_encode (order : ByteOrder) {size n : Nat} (h : n < twoPow (8 * size)) :
    order.decode (order.encode size n) = n := by
  cases order <;> simp [encode, decode, numberOfLowBytes_lowBytes h]

/-- Bytes are those of the number they stand for. -/
theorem encode_decode (order : ByteOrder) (bytes : Bytes) :
    order.encode bytes.length (order.decode bytes) = bytes := by
  cases order with
  | little => exact lowBytes_numberOfLowBytes bytes
  | big =>
    have h := lowBytes_numberOfLowBytes bytes.reverse
    rw [List.length_reverse] at h
    rw [encode, decode, h, List.reverse_reverse]

theorem decode_lt (order : ByteOrder) (bytes : Bytes) :
    order.decode bytes < twoPow (8 * bytes.length) := by
  cases order with
  | little => exact numberOfLowBytes_lt bytes
  | big => simpa [decode] using numberOfLowBytes_lt bytes.reverse

end ByteOrder

section Overwrite

variable {memory other data : Bytes} {offset size i : Nat}

theorem length_overwrite (h : offset + data.length ≤ memory.length) :
    (overwrite memory offset data).length = memory.length := by
  simp [overwrite]
  omega

/-- A byte outside of the region that is written. -/
theorem getElem?_overwrite (h : offset + data.length ≤ memory.length)
    (hi : ¬ Region.Contains ⟨offset, data.length⟩ i) :
    (overwrite memory offset data)[i]? = memory[i]? := by
  have hlen : (memory.take offset).length = offset := by simp; omega
  simp only [Region.Contains, Region.stop] at hi
  rw [overwrite, List.append_assoc]
  rcases Nat.lt_or_ge i offset with hlt | hge
  · rw [List.getElem?_append_left (by omega), List.getElem?_take_of_lt hlt]
  · rw [List.getElem?_append_right (by omega), List.getElem?_append_right (by omega),
      List.getElem?_drop]
    congr 1
    omega

/-- A byte inside of it. -/
theorem getElem?_overwrite_of_contains (h : offset + data.length ≤ memory.length)
    (hi : Region.Contains ⟨offset, data.length⟩ i) :
    (overwrite memory offset data)[i]? = data[i - offset]? := by
  have hlen : (memory.take offset).length = offset := by simp; omega
  simp only [Region.Contains, Region.stop] at hi
  rw [overwrite, List.append_assoc, List.getElem?_append_right (by omega), hlen,
    List.getElem?_append_left (by omega)]

/-- What was written is read back. -/
theorem slice_overwrite (h : offset + data.length ≤ memory.length) :
    slice (overwrite memory offset data) offset data.length = data := by
  have hlen : (memory.take offset).length = offset := by simp; omega
  rw [slice, overwrite, List.append_assoc, List.drop_left' hlen, List.take_left]

/-- Memories that agree on a region have the same slice there. -/
theorem slice_congr (h : ∀ i, Region.Contains ⟨offset, size⟩ i → memory[i]? = other[i]?) :
    slice memory offset size = slice other offset size := by
  apply List.ext_getElem?
  intro k
  rcases Nat.lt_or_ge k size with hk | hk
  · rw [slice, slice, List.getElem?_take_of_lt hk, List.getElem?_take_of_lt hk, List.getElem?_drop,
      List.getElem?_drop]
    exact h _ ⟨Nat.le_add_right _ _, Nat.add_lt_add_left hk _⟩
  · rw [slice, slice, List.getElem?_eq_none, List.getElem?_eq_none] <;> simp <;> omega

end Overwrite

/-! ## Many writes -/

/-- Data to be written at an offset. -/
structure Piece where
  offset : Nat
  data : Bytes

/-- The bytes that are written. -/
def Piece.region (p : Piece) : Region :=
  ⟨p.offset, p.data.length⟩

/-- The memory with pieces of data written one after the other. -/
def overwriteAll (memory : Bytes) (pieces : List Piece) : Bytes :=
  pieces.foldl (fun memory p => overwrite memory p.offset p.data) memory

theorem overwriteAll_append (memory : Bytes) (first second : List Piece) :
    overwriteAll memory (first ++ second) = overwriteAll (overwriteAll memory first) second :=
  List.foldl_append

section OverwriteAll

variable {memory : Bytes} {pieces : List Piece} {i : Nat}

/-- Pieces inside the memory do not change its length. -/
theorem length_overwriteAll (h : ∀ p ∈ pieces, p.region.stop ≤ memory.length) :
    (overwriteAll memory pieces).length = memory.length := by
  induction pieces generalizing memory with
  | nil => rfl
  | cons p pieces ih =>
    obtain ⟨hp, hrest⟩ := List.forall_mem_cons.mp h
    have hlen := length_overwrite hp
    exact (ih fun q hq => hlen ▸ hrest q hq).trans hlen

/-- A byte outside all pieces stays as it is. -/
theorem getElem?_overwriteAll (h : ∀ p ∈ pieces, p.region.stop ≤ memory.length)
    (hi : ∀ p ∈ pieces, ¬ p.region.Contains i) : (overwriteAll memory pieces)[i]? = memory[i]? := by
  induction pieces generalizing memory with
  | nil => rfl
  | cons p pieces ih =>
    obtain ⟨hp, hrest⟩ := List.forall_mem_cons.mp h
    obtain ⟨hip, hirest⟩ := List.forall_mem_cons.mp hi
    have hlen := length_overwrite hp
    exact (ih (fun q hq => hlen ▸ hrest q hq) hirest).trans (getElem?_overwrite hp hip)

/-- Pieces that do not overlap are all read back. -/
theorem slice_overwriteAll (h : ∀ p ∈ pieces, p.region.stop ≤ memory.length)
    (hordered : pieces.Pairwise (·.region.Before ·.region)) {p : Piece} (hp : p ∈ pieces) :
    slice (overwriteAll memory pieces) p.offset p.data.length = p.data := by
  induction pieces generalizing memory with
  | nil => cases hp
  | cons q pieces ih =>
    obtain ⟨hq, hrest⟩ := List.forall_mem_cons.mp h
    obtain ⟨hbefore, hordered⟩ := List.pairwise_cons.mp hordered
    have hrest' : ∀ p ∈ pieces, p.region.stop ≤ (overwrite memory q.offset q.data).length :=
      fun p hp => length_overwrite hq ▸ hrest p hp
    rcases List.mem_cons.mp hp with rfl | hp
    -- The later writes do not reach the region of the first one.
    · refine (slice_congr fun i hi => ?_).trans (slice_overwrite hq)
      exact getElem?_overwriteAll hrest' fun k hk => (hbefore k hk).not_contains hi
    · exact ih hrest' hordered hp

end OverwriteAll

/-! ## Two memories -/

/-- Memories of one length with the same bytes outside a region. -/
structure AgreeOutside (g : Region) (memory other : Bytes) : Prop where
  length : memory.length = other.length
  getElem? : ∀ i, ¬ g.Contains i → memory[i]? = other[i]?

section AgreeOutside

variable {g : Region} {memory other : Bytes}

/-- Two ways to write a region. -/
theorem agreeOutside_of_overwrite {offset : Nat} {first second : Bytes}
    (h : offset + first.length ≤ memory.length) (hlength : first.length = second.length) :
    AgreeOutside ⟨offset, first.length⟩ (overwrite memory offset first)
      (overwrite memory offset second) where
  length := by rw [length_overwrite h, length_overwrite (hlength ▸ h)]
  getElem? i hi := by
    rw [getElem?_overwrite h hi, getElem?_overwrite (hlength ▸ h) (hlength ▸ hi)]

theorem AgreeOutside.write (hagree : AgreeOutside g memory other) {offset : Nat} {data : Bytes}
    (h : offset + data.length ≤ memory.length) :
    AgreeOutside g (overwrite memory offset data) (overwrite other offset data) := by
  have hother : offset + data.length ≤ other.length := hagree.length ▸ h
  refine ⟨by rw [length_overwrite h, length_overwrite hother, hagree.length], fun i hi => ?_⟩
  by_cases hwritten : Region.Contains ⟨offset, data.length⟩ i
  · rw [getElem?_overwrite_of_contains h hwritten, getElem?_overwrite_of_contains hother hwritten]
  · rw [getElem?_overwrite h hwritten, getElem?_overwrite hother hwritten, hagree.getElem? i hi]

/-- The same pieces written to both memories change nothing in how they agree. -/
theorem AgreeOutside.writeAll (hagree : AgreeOutside g memory other) {pieces : List Piece}
    (h : ∀ p ∈ pieces, p.region.stop ≤ memory.length) :
    AgreeOutside g (overwriteAll memory pieces) (overwriteAll other pieces) := by
  induction pieces generalizing memory other with
  | nil => exact hagree
  | cons p pieces ih =>
    obtain ⟨hp, hrest⟩ := List.forall_mem_cons.mp h
    exact ih (hagree.write hp) fun q hq => length_overwrite hp ▸ hrest q hq

end AgreeOutside

end MessageSchema.Memory
