/-
The byte form of programs.  Fields follow each other without names; lists and
payloads come after their lengths.
-/
import MerkleStack.Program
import MerkleStack.Wire.Integer

namespace MerkleStack

namespace Wire

/-- Memory claimed for an op before it is read. -/
def opClaim : Nat := 40

def putOp (op : Op) : Bytes :=
  putInteger op.opcode.toNat ++ putInteger op.index.toNat ++
    putInteger op.payload.length ++ op.payload

def putMetadata (metadata : Metadata) : Bytes :=
  putInteger metadata.hashId.toNat ++ putInteger metadata.outputLength.toNat ++
    putInteger metadata.inputCount.toNat ++
    putInteger metadata.branchingFactor.toNat

def putProgram (program : Program) : Bytes :=
  putMetadata program.metadata ++ putInteger program.ops.length ++
    program.ops.flatMap putOp

def getMetadata : Reader Metadata := do
  let hashId ← getU32
  let outputLength ← getU32
  let inputCount ← getU32
  let branchingFactor ← getU32
  return ⟨hashId, outputLength, inputCount, branchingFactor⟩

def getPayload : Reader Bytes := do
  let length ← getU64
  claim length.toNat
  getBytes length.toNat

/-- Read an op.  Its claim is given back, as each of its fields makes its own. -/
def getOp : Reader Op := do
  release opClaim
  let opcode ← getU32
  let index ← getU64
  let payload ← getPayload
  return ⟨opcode, index, payload⟩

/-- Read a number of ops; `before` holds those already read, the last one first. -/
def getOps : Nat → List Op → Reader (List Op)
  | 0, before => return before.reverse
  | count + 1, before => do
      let next ← getOp
      getOps count (next :: before)

/-- Read a program.  All ops are claimed before the first one is read. -/
def getProgram : Reader Program := do
  let metadata ← getMetadata
  let count ← getU64
  claim (opClaim * count.toNat)
  let ops ← getOps count.toNat []
  return ⟨metadata, ops⟩

/-- The program that a byte string is the form of. -/
def ofBytes (bytes : Bytes) : Except DecodeError Program := do
  let (program, cursor) ← getProgram ⟨bytes, 0⟩
  if cursor.rest.isEmpty then
    return program
  else
    throw (.trailing cursor.rest.length)

end Wire

namespace Program

/-- Most bytes that a program may claim while it is decoded. -/
def maxEncodedBytes : Nat := Wire.claimLimit

def encode (program : Program) : Bytes :=
  Wire.putProgram program

/-- The program that a byte string is the form of. -/
def decode (bytes : Bytes) : Except Error Program :=
  match Wire.ofBytes bytes with
  | .ok program => .ok program
  | .error cause => .error (.encoding ("unable to decode program: " ++ cause.text))

end Program

end MerkleStack
