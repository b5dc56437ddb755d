/-
Hashers give the digest of the whole message.  Every function of the table gives
block by block what it gives at once, so the digest of several writes is that of
their concatenation.
-/
import MerkleStack.Hasher
import MerkleStack.Proofs.Blake3Forest

namespace MerkleStack

theorem HashFunction.finish_write (function : HashFunction) (size : Nat)
    (message : Bytes) :
    ((Absorbed.empty function.blockHash).write message).finish size =
      function.digest size message := by
  cases function with
  | sha256 => exact Sha256.finish_write message size
  | shake128 => exact Keccak.finish_write (by decide) message size
  | shake256 => exact Keccak.finish_write (by decide) message size
  | blake3 => exact Blake3.finish_write _ message size
  | blake3Xof => exact Blake3.finish_write _ message size

namespace Hasher

private theorem foldlM_write (hasher : Hasher) (hfresh : hasher.spent = false)
    (values : List Bytes) :
    values.foldlM write hasher =
      .ok { hasher with read := hasher.read.write values.flatten } := by
  induction values generalizing hasher with
  | nil => rfl
  | cons value rest ih =>
      have hwrite : hasher.write value =
          .ok { hasher with read := hasher.read.write value } := by
        rw [write, hfresh]
        rfl
      rw [List.foldlM_cons, hwrite]
      refine (ih { hasher with read := hasher.read.write value } hfresh).trans ?_
      rw [List.flatten_cons, Absorbed.write_append]

/-- A digest of values taken from a clean start is never refused, and it is the
digest of their concatenation. -/
theorem sumOf_eq (hasher : Hasher) (values : List Bytes) :
    hasher.sumOf values =
      .ok (hasher.function.digest hasher.size values.flatten,
        spend { hasher with
          read := (Absorbed.empty _).write values.flatten
          spent := false }) := by
  rw [sumOf, foldlM_write hasher.reset rfl, ← HashFunction.finish_write]
  rfl

end Hasher

end MerkleStack
