/-
The meaning of ops without a hasher.  An op takes a stack of values to a stack of
values or to the error that it fails with, and a program is the fold of its ops.
The numbers of functions and ops, the checks of the metadata and the comparison with
the expected value are written out here once more.
-/
import MerkleStack.Digest
import MerkleStack.Verify

namespace MerkleStack

/-- What stays the same while ops are evaluated: a digest of whole messages, the
arity of `POP_CHILDREN_AND_HASH`, and the inputs with their declared count. -/
structure Setting where
  digest : Bytes → Bytes
  branchingFactor : UInt32
  inputCount : UInt32
  inputs : List Bytes

namespace Setting

def input (setting : Setting) (index : UInt64) : Except Error Bytes :=
  match setting.inputs[index.toNat]? with
  | some value => .ok value
  | none => .error (.program (.inputOutOfBounds index setting.inputCount))

/-- Digest of the `count` values on top, the top one first. -/
def digestTop (setting : Setting) (count : Nat) (stack : List Bytes) :
    Except Error Bytes :=
  if stack.length < count then
    .error (.program (.stackUnderflow count stack.length))
  else
    .ok (setting.digest (stack.take count).flatten)

def eval (setting : Setting) (stack : List Bytes) : Instruction → Except Error (List Bytes)
  | .pushInput index => return (← setting.input index) :: stack
  | .pushBytes payload => return payload :: stack
  | .hashChildren =>
      let count := setting.branchingFactor.toNat
      if count = 0 then
        throw (.program (.badBranchingFactor setting.branchingFactor))
      else
        return (← setting.digestTop count stack) :: stack.drop count
  | .popHash count =>
      return (← setting.digestTop count.toNat stack) :: stack.drop count.toNat
  | .peekHash count => return (← setting.digestTop count.toNat stack) :: stack
  | .matchInput index => do
      let expected ← setting.input index
      match stack with
      | [] => throw (.program (.stackUnderflow 1 0))
      | value :: rest =>
          if value = expected then return rest
          else throw (.valueMismatch index value expected)
  | .unknown opcode _ => throw (.program (.unknownOpcode opcode))

/-- The stack after an op, by the number that it stores. -/
def evalOp (setting : Setting) (stack : List Bytes) (op : Op) : Except Error (List Bytes) :=
  match op.opcode with
  | 1 => setting.eval stack (.pushInput op.index)
  | 2 => setting.eval stack (.pushBytes op.payload)
  | 3 => setting.eval stack .hashChildren
  | 4 => setting.eval stack (.popHash op.index)
  | 5 => setting.eval stack (.peekHash op.index)
  | 6 => setting.eval stack (.matchInput op.index)
  | opcode => throw (.program (.unknownOpcode opcode))

/-- The stack after some ops, or the error of the first one that fails. -/
def evalOps (setting : Setting) (stack : List Bytes) (ops : List Op) :
    Except Error (List Bytes) :=
  ops.foldlM setting.evalOp stack

end Setting

/-- Digest under a function whose digests have thirty-two bytes, for which no length may
be declared. -/
def HashFunction.fixedDigest (function : HashFunction) (declared : UInt32) :
    Except ConfigError (Bytes → Bytes) :=
  if declared = 0 then .ok (function.digest 32) else .error (.lengthDeclared function declared)

/-- Digest of as many bytes as are declared, of which there must be some. -/
def HashFunction.declaredDigest (function : HashFunction) (declared : UInt32) :
    Except ConfigError (Bytes → Bytes) :=
  if declared = 0 then .error (.lengthMissing function)
  else .ok (function.digest declared.toNat)

/-- The digest that the metadata select, by the identifier that they store. -/
def Metadata.digest (metadata : Metadata) : Except ConfigError (Bytes → Bytes) :=
  match metadata.hashId with
  | 1 => HashFunction.sha256.fixedDigest metadata.outputLength
  | 2 => HashFunction.shake128.declaredDigest metadata.outputLength
  | 3 => HashFunction.shake256.declaredDigest metadata.outputLength
  | 4 => HashFunction.blake3.fixedDigest metadata.outputLength
  | 5 => HashFunction.blake3Xof.declaredDigest metadata.outputLength
  | id => .error (.unknownFunction id)

/-- Settings of a run, checked in the order input count, hash identifier, declared
length. -/
def Program.setting (program : Program) (inputs : List Bytes) :
    Except ConfigError Setting := do
  let metadata := program.metadata
  if metadata.inputCount.toNat ≠ inputs.length then
    throw (.inputCount metadata.inputCount inputs.length)
  return ⟨← metadata.digest, metadata.branchingFactor, metadata.inputCount, inputs⟩

/-- Verdict on a program by evaluation. -/
def evaluate (program : Program) (inputs : List Bytes) (expected : Bytes) :
    Except Error Verdict := do
  let setting ← (program.setting inputs).mapError Error.config
  match ← setting.evalOps [] program.ops with
  | [output] => return ⟨output == expected, output⟩
  | stack => throw (.program (.finalStackSize stack.length))

end MerkleStack
