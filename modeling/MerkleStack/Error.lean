/-
The causes for which a program is turned down or stops, and the message of each.
-/
import MerkleStack.HashFunction
import MerkleStack.Hex

namespace MerkleStack

/-- Metadata that does not fit, found before any op runs. -/
inductive ConfigError
  | inputCount (expected : UInt32) (actual : Nat)
  | unknownFunction (id : UInt32)
  | lengthDeclared (function : HashFunction) (declared : UInt32)
  | lengthMissing (function : HashFunction)
deriving DecidableEq, Repr

/-- Ops that cannot be carried out, or that leave no single value. -/
inductive ProgramError
  | unknownOpcode (opcode : UInt32)
  | inputOutOfBounds (index : UInt64) (count : UInt32)
  | inputMissing (index : UInt64) (count : Nat)
  | stackUnderflow (needed found : Nat)
  | badBranchingFactor (factor : UInt32)
  | finalStackSize (size : Nat)
  | pastEnd
deriving DecidableEq, Repr

/-- Every cause.  `valueMismatch` is a proof that fails, the others are malformed
in some way; `hasherSpent` is a hasher used again before a reset. -/
inductive Error
  | config (cause : ConfigError)
  | program (cause : ProgramError)
  | valueMismatch (index : UInt64) (value expected : Bytes)
  | encoding (text : String)
  | hasherSpent
deriving DecidableEq, Repr

def ConfigError.message : ConfigError → String
  | inputCount expected actual =>
      "invalid input count: program expected " ++ expected.toNat.repr ++
        ", got " ++ actual.repr
  | unknownFunction id => "unknown hash function: " ++ id.toNat.repr
  | lengthDeclared function declared =>
      "fixed-length hash function '" ++ function.name ++
        "' has non-zero output length " ++ declared.toNat.repr
  | lengthMissing function =>
      "variable-length hash function '" ++ function.name ++
        "' has zero output length"

def ProgramError.message : ProgramError → String
  | unknownOpcode opcode => "invalid program: unknown opcode " ++ opcode.toNat.repr
  | inputOutOfBounds index count =>
      "invalid program: input index out of bounds " ++ index.toNat.repr ++
        ", program's expected input count " ++ count.toNat.repr
  | inputMissing index count =>
      "invalid invocation: program expected input at index " ++ index.toNat.repr ++
        ", invoked with " ++ count.repr ++ " total inputs"
  | stackUnderflow needed found =>
      "invalid program: stack underflow, expected at least " ++ needed.repr ++
        " values, found " ++ found.repr
  | badBranchingFactor factor =>
      "bad branching factor in metadata: " ++ factor.toNat.repr
  | finalStackSize size =>
      "invalid program: expected one output on stack, stack size: " ++ size.repr
  | pastEnd => "ip advanced past end of program"

def Error.message : Error → String
  | config cause => cause.message
  | program cause => cause.message
  | valueMismatch index value expected =>
      "value (" ++ hex value ++ ") does not match input " ++ index.toNat.repr ++
        " (" ++ hex expected ++ ")"
  | encoding text => "encoding error: " ++ text
  | hasherSpent => "OnceHash: cannot be used after calling sum, must be reset"

end MerkleStack
