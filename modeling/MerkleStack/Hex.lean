/-
Lowercase hexadecimal text of byte strings: two digits for every byte, the high
half first.
-/
import MerkleStack.Bytes

namespace MerkleStack

def hexDigit (n : Nat) : Char :=
  if n < 10 then Char.ofNat (48 + n) else Char.ofNat (87 + n)

def hexByte (b : UInt8) : List Char :=
  [hexDigit (b.toNat / 16), hexDigit (b.toNat % 16)]

/-- Hexadecimal text of a byte string. -/
def hex (bytes : Bytes) : String :=
  String.ofList (bytes.flatMap hexByte)

end MerkleStack
