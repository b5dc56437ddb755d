/-
Hashers that give one digest between resets.  After its digest was taken a hasher
refuses everything but a reset, so a digest never covers bytes of two messages.
-/
import MerkleStack.Digest
import MerkleStack.Error

namespace MerkleStack

/-- Whether a hasher forgets what it has read as soon as its digest is taken.  The
BLAKE3 functions keep it up to the next reset. -/
def HashFunction.forgetsOnSum : HashFunction → Bool
  | sha256 | shake128 | shake256 => true
  | blake3 | blake3Xof => false

/-- A hasher: what it has read since its last reset, and whether its digest was
taken since. -/
structure Hasher where
  function : HashFunction
  size : Nat
  read : Absorbed function.blockHash
  spent : Bool

namespace Hasher

/-- A fresh hasher.  A function with a size of its own ignores `size`. -/
def new (function : HashFunction) (size : Nat) : Hasher :=
  ⟨function, function.digestSize size, Absorbed.empty _, false⟩

/-- Forget what was read and allow another digest. -/
def reset (hasher : Hasher) : Hasher :=
  { hasher with read := Absorbed.empty _, spent := false }

def write (hasher : Hasher) (bytes : Bytes) : Except Error Hasher :=
  if hasher.spent then .error .hasherSpent
  else .ok { hasher with read := hasher.read.write bytes }

/-- The hasher after its digest was taken.  Whether it still holds what it has read
cannot be told, since it has to be reset before it is used again. -/
def spend (hasher : Hasher) : Hasher :=
  { hasher with
    read := if hasher.function.forgetsOnSum then Absorbed.empty _ else hasher.read
    spent := true }

def sum (hasher : Hasher) : Except Error (Bytes × Hasher) :=
  if hasher.spent then .error .hasherSpent
  else .ok (hasher.read.finish hasher.size, hasher.spend)

/-- The digest of some values one after the other, taken from a clean start. -/
def sumOf (hasher : Hasher) (values : List Bytes) : Except Error (Bytes × Hasher) := do
  let written ← values.foldlM write hasher.reset
  written.sum

/-- Text that names the function and the digest size. -/
def describe (hasher : Hasher) : String :=
  "OnceHasher \x7b function: \"" ++ hasher.function.label ++ "\", size: " ++
    hasher.size.repr ++ " \x7d"

end Hasher

end MerkleStack
