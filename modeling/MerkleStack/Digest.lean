/-
The digest of a whole message under each hash function of the table, and the
block by block form of the same function.
-/
import MerkleStack.HashFunction
import MerkleStack.Digest.Blake3
import MerkleStack.Digest.Keccak
import MerkleStack.Digest.Sha256

namespace MerkleStack.HashFunction

/-- Digest of a message.  A function with a size of its own ignores `size`. -/
def digest (function : HashFunction) (size : Nat) (message : Bytes) : Bytes :=
  match function with
  | sha256 => Sha256.digest message
  | shake128 => Keccak.digest Keccak.shake128Rate message size
  | shake256 => Keccak.digest Keccak.shake256Rate message size
  | blake3 => Blake3.digest message
  | blake3Xof => Blake3.extended message size

def blockHash : HashFunction → BlockHash
  | sha256 => Sha256.blockHash
  | shake128 => Keccak.blockHash Keccak.shake128Rate
  | shake256 => Keccak.blockHash Keccak.shake256Rate
  | blake3 => Blake3.blockHash
  | blake3Xof => Blake3.extendedBlockHash

end MerkleStack.HashFunction
