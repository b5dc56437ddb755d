/-
Programs: a list of ops under metadata that select the hash, declare how many
inputs are expected and fix the arity of one op.
-/
import MerkleStack.Error
import MerkleStack.Op

namespace MerkleStack

/-- Size of the digests of a function when a program declares `declared`.  A
function with a size of its own needs zero, any other needs a size. -/
def HashFunction.resolveSize (function : HashFunction) (declared : UInt32) :
    Except ConfigError Nat :=
  match function.policy with
  | .fixed =>
      if declared = 0 then .ok fixedSize else .error (.lengthDeclared function declared)
  | .declared =>
      if declared = 0 then .error (.lengthMissing function) else .ok declared.toNat

/-- Settings of a program. -/
structure Metadata where
  hashId : UInt32
  outputLength : UInt32
  inputCount : UInt32
  branchingFactor : UInt32
deriving DecidableEq, Repr, Inhabited

namespace Metadata

/-- Settings with a known function and no declared output length. -/
def ofFunction (function : HashFunction) (inputCount branchingFactor : UInt32) :
    Metadata :=
  ⟨function.id, 0, inputCount, branchingFactor⟩

def declaring (metadata : Metadata) (length : UInt32) : Metadata :=
  { metadata with outputLength := length }

def function (metadata : Metadata) : Except ConfigError HashFunction :=
  match HashFunction.ofId? metadata.hashId with
  | some function => .ok function
  | none => .error (.unknownFunction metadata.hashId)

def sizePolicy (metadata : Metadata) : Except ConfigError SizePolicy :=
  metadata.function.map HashFunction.policy

end Metadata

/-- A program. -/
structure Program where
  metadata : Metadata
  ops : List Op
deriving DecidableEq, Repr, Inhabited

end MerkleStack
