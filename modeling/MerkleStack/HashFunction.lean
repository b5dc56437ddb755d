/-
The hash functions that a program may select: their identifiers, their names,
and whether their digests have a size of their own.
-/
namespace MerkleStack

/-- Whether digests have a size of their own or the size that a program declares. -/
inductive SizePolicy
  | fixed
  | declared
deriving DecidableEq, Repr

/-- A hash function of the table. -/
inductive HashFunction
  | sha256
  | shake128
  | shake256
  | blake3
  | blake3Xof
deriving DecidableEq, Repr

namespace HashFunction

/-- All functions in the order of their identifiers. -/
def all : List HashFunction :=
  [sha256, shake128, shake256, blake3, blake3Xof]

/-- Identifier in a program's metadata.  None has zero, so a field that was never
set selects no function. -/
def id : HashFunction → UInt32
  | sha256 => 1
  | shake128 => 2
  | shake256 => 3
  | blake3 => 4
  | blake3Xof => 5

/-- Name in listings and messages. -/
def name : HashFunction → String
  | sha256 => "SHA-256"
  | shake128 => "SHAKE128"
  | shake256 => "SHAKE256"
  | blake3 => "BLAKE3"
  | blake3Xof => "BLAKE3-XOF"

/-- Name without punctuation. -/
def label : HashFunction → String
  | sha256 => "Sha256"
  | shake128 => "Shake128"
  | shake256 => "Shake256"
  | blake3 => "Blake3"
  | blake3Xof => "Blake3Xof"

def policy : HashFunction → SizePolicy
  | sha256 | blake3 => .fixed
  | shake128 | shake256 | blake3Xof => .declared

/-- The function with an identifier, if there is one. -/
def ofId? (id : UInt32) : Option HashFunction :=
  all.find? fun function => function.id == id

/-- Digest size of the functions that have one of their own. -/
def fixedSize : Nat := 32

/-- Digest size when `size` bytes are asked for. -/
def digestSize (function : HashFunction) (size : Nat) : Nat :=
  match function.policy with
  | .fixed => fixedSize
  | .declared => size

theorem ofId?_id (function : HashFunction) : ofId? function.id = some function := by
  cases function <;> decide

theorem id_of_ofId? {id : UInt32} {function : HashFunction}
    (h : ofId? id = some function) : function.id = id := by
  simpa using List.find?_some h

/-- No two functions share a name. -/
theorem name_inj {first second : HashFunction} (h : first.name = second.name) :
    first = second := by
  revert h
  cases first <;> cases second <;> decide

end HashFunction

end MerkleStack
