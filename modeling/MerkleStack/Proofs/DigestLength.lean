/-
Lengths of digests.  A digest has the size of its function if that has one of its own,
and else the size that was asked for.
-/
import MerkleStack.Digest
import MerkleStack.Program

namespace MerkleStack

theorem length_flatMap_littleEndian (width : Nat) (words : List UInt32) :
    (words.flatMap fun w => littleEndian width w.toNat).length = words.length * width := by
  induction words with
  | nil => simp
  | cons w rest ih =>
      rw [List.flatMap_cons, List.length_append, length_littleEndian, ih, List.length_cons,
        Nat.succ_mul, Nat.add_comm]

theorem Sha256.length_digest (message : Bytes) : (Sha256.digest message).length = 32 := by
  simp [Sha256.digest, Sha256.Words.toBytes]

theorem Keccak.length_emit (rate : Nat) (s : Keccak.State) :
    (Keccak.emit rate s).length = rate := by
  simp [Keccak.emit]

theorem Keccak.length_digest {rate : Nat} (hrate : 0 < rate) (message : Bytes) (size : Nat) :
    (Keccak.digest rate message size).length = size :=
  length_squeeze hrate (Keccak.length_emit rate) Keccak.permute _ size

theorem Blake3.length_digest (message : Bytes) : (Blake3.digest message).length = 32 := by
  rw [Blake3.digest, Blake3.Node.fixedOutput, length_flatMap_littleEndian, Vector.length_toList]

theorem Blake3.Node.length_outputBlock (root : Blake3.Node) (position : Nat) :
    (root.outputBlock position).length = Blake3.blockBytes := by
  rw [Blake3.Node.outputBlock, length_flatMap_littleEndian, Vector.length_toList]
  rfl

theorem Blake3.length_extended (message : Bytes) (size : Nat) :
    (Blake3.extended message size).length = size :=
  length_squeeze (by decide) (Blake3.tree 0 message).length_outputBlock (· + 1) 0 size

/-- A size that was asked for may be replaced by the size that digests have then. -/
theorem HashFunction.digest_digestSize (function : HashFunction) (size : Nat) :
    function.digest (function.digestSize size) = function.digest size := by
  cases function <;> rfl

theorem HashFunction.length_digest (function : HashFunction) (size : Nat) (message : Bytes) :
    (function.digest size message).length = function.digestSize size := by
  cases function with
  | sha256 => exact Sha256.length_digest message
  | shake128 => exact Keccak.length_digest (by decide) message size
  | shake256 => exact Keccak.length_digest (by decide) message size
  | blake3 => exact Blake3.length_digest message
  | blake3Xof => exact Blake3.length_extended message size

/-- The size that a declaration resolves to, which is never zero. -/
theorem HashFunction.size_of_resolveSize {function : HashFunction} {declared : UInt32}
    {size : Nat} (hsize : function.resolveSize declared = .ok size) :
    0 < size ∧ size = match function.policy with
      | .fixed => 32
      | .declared => declared.toNat := by
  rw [resolveSize] at hsize
  cases hpolicy : function.policy with
  | fixed =>
      simp only [hpolicy] at hsize
      split at hsize
      · cases hsize
        exact ⟨by decide, rfl⟩
      · cases hsize
  | declared =>
      simp only [hpolicy] at hsize
      split at hsize
      · cases hsize
      · case isFalse hdeclared =>
          cases hsize
          refine ⟨Nat.pos_of_ne_zero ?_, rfl⟩
          intro hzero
          exact hdeclared (UInt32.toNat.inj hzero)

theorem HashFunction.digestSize_of_resolveSize {function : HashFunction} {declared : UInt32}
    {size : Nat} (hsize : function.resolveSize declared = .ok size) :
    function.digestSize size = size := by
  rw [digestSize]
  cases hpolicy : function.policy with
  | fixed =>
      rw [(size_of_resolveSize hsize).2, hpolicy]
      rfl
  | declared => rfl

end MerkleStack
