/-
Byte strings: the numbers they spell, most or least significant byte first, and
their cutting into blocks of one size.
-/
namespace MerkleStack

abbrev Bytes := List UInt8

/-- The `width` low bytes of a number, the least significant first. -/
def littleEndian : Nat → Nat → Bytes
  | 0, _ => []
  | width + 1, n => UInt8.ofNat n :: littleEndian width (n / 256)

/-- The number that a byte string spells, the least significant byte first. -/
def ofLittleEndian : Bytes → Nat
  | [] => 0
  | b :: rest => b.toNat + 256 * ofLittleEndian rest

/-- The `width` low bytes of a number, the most significant first. -/
def bigEndian (width n : Nat) : Bytes :=
  (littleEndian width n).reverse

/-- The number that a byte string spells, the most significant byte first. -/
def ofBigEndian (bytes : Bytes) : Nat :=
  ofLittleEndian bytes.reverse

/-- The first `count` blocks of `size` bytes each. -/
def blocks (size : Nat) : Nat → Bytes → List Bytes
  | 0, _ => []
  | count + 1, bytes => bytes.take size :: blocks size count (bytes.drop size)

@[simp] theorem length_littleEndian (width n : Nat) :
    (littleEndian width n).length = width := by
  induction width generalizing n with
  | zero => rfl
  | succ width ih => simp [littleEndian, ih]

@[simp] theorem length_bigEndian (width n : Nat) :
    (bigEndian width n).length = width := by
  simp [bigEndian]

@[simp] theorem length_blocks (size count : Nat) (bytes : Bytes) :
    (blocks size count bytes).length = count := by
  induction count generalizing bytes with
  | zero => rfl
  | succ count ih => simp [blocks, ih]

/-- The first blocks, and then the blocks of what is left. -/
theorem blocks_add (size first second : Nat) (bytes : Bytes) :
    blocks size (first + second) bytes =
      blocks size first bytes ++ blocks size second (bytes.drop (first * size)) := by
  induction first generalizing bytes with
  | zero => simp [blocks]
  | succ first ih =>
      rw [Nat.add_right_comm, blocks, ih, blocks, List.cons_append, List.drop_drop,
        Nat.succ_mul, Nat.add_comm size]

/-- Bytes that follow do not change the whole blocks before them. -/
theorem blocks_append (size count : Nat) (bytes more : Bytes)
    (hwhole : count * size ≤ bytes.length) :
    blocks size count (bytes ++ more) = blocks size count bytes := by
  induction count generalizing bytes with
  | zero => rfl
  | succ count ih =>
      rw [Nat.succ_mul] at hwhole
      rw [blocks, blocks, List.take_append_of_le_length (by omega),
        List.drop_append_of_le_length (by omega), ih]
      rw [List.length_drop]
      omega

theorem blocks_take (size count : Nat) (bytes : Bytes)
    (hwhole : count * size ≤ bytes.length) :
    blocks size count (bytes.take (count * size)) = blocks size count bytes := by
  have h := blocks_append size count (bytes.take (count * size))
    (bytes.drop (count * size)) (by rw [List.length_take]; omega)
  rw [List.take_append_drop] at h
  exact h.symm

/-- Blocks cover a byte string whose length is a multiple of their size. -/
theorem flatten_blocks (size count : Nat) (bytes : Bytes)
    (hlength : bytes.length = count * size) :
    (blocks size count bytes).flatten = bytes := by
  induction count generalizing bytes with
  | zero =>
      rw [Nat.zero_mul, List.length_eq_zero_iff] at hlength
      rw [hlength]
      rfl
  | succ count ih =>
      rw [Nat.succ_mul] at hlength
      rw [blocks, List.flatten_cons, ih, List.take_append_drop]
      rw [List.length_drop]
      omega

theorem length_of_mem_blocks {size count : Nat} {bytes block : Bytes}
    (hwhole : count * size ≤ bytes.length) (hmem : block ∈ blocks size count bytes) :
    block.length = size := by
  induction count generalizing bytes with
  | zero => exact absurd hmem List.not_mem_nil
  | succ count ih =>
      rw [Nat.succ_mul] at hwhole
      rw [blocks, List.mem_cons] at hmem
      rcases hmem with rfl | hmem
      · rw [List.length_take]
        omega
      · apply ih _ hmem
        rw [List.length_drop]
        omega

/-- Every byte string is the written form of the number that it spells. -/
theorem littleEndian_ofLittleEndian (bytes : Bytes) :
    littleEndian bytes.length (ofLittleEndian bytes) = bytes := by
  induction bytes with
  | nil => rfl
  | cons b rest ih =>
      have hb : b.toNat < 256 := b.toNat_lt
      have hdiv : (b.toNat + 256 * ofLittleEndian rest) / 256 = ofLittleEndian rest := by
        omega
      have hlow : UInt8.ofNat (b.toNat + 256 * ofLittleEndian rest) = b := by
        rw [← UInt8.toNat_inj]
        change (b.toNat + 256 * ofLittleEndian rest) % 256 = b.toNat
        omega
      rw [List.length_cons, ofLittleEndian, littleEndian, hdiv, hlow, ih]

theorem bigEndian_ofBigEndian (bytes : Bytes) :
    bigEndian bytes.length (ofBigEndian bytes) = bytes := by
  have h := littleEndian_ofLittleEndian bytes.reverse
  rw [List.length_reverse] at h
  rw [bigEndian, ofBigEndian, h, List.reverse_reverse]

end MerkleStack
