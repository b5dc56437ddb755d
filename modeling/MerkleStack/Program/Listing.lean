/-
The text form of a program: one line for the metadata and one for every op.  An
op is written as the instruction that it stands for, so a listing shows all that
a run can depend on.
-/
import MerkleStack.Program

namespace MerkleStack

/-- The decimal text of a number, filled with spaces on the left. -/
def paddedDecimal (width n : Nat) : String :=
  String.ofList (List.replicate (width - n.repr.length) ' ') ++ n.repr

/-- Name of the selected function, or its number where no function has it. -/
def Metadata.hashText (metadata : Metadata) : String :=
  match HashFunction.ofId? metadata.hashId with
  | some function => function.name
  | none => "#" ++ metadata.hashId.toNat.repr

/-- The metadata line.  A declared length of zero is not written. -/
def Metadata.text (metadata : Metadata) : String :=
  "hash: " ++ metadata.hashText ++
    (if metadata.outputLength = 0 then ""
      else " (" ++ metadata.outputLength.toNat.repr ++ " bytes)") ++
    ", inputs: " ++ metadata.inputCount.toNat.repr ++
    ", branching factor: " ++ metadata.branchingFactor.toNat.repr

def Opcode.withOperand (opcode : Opcode) (operand : UInt64) : String :=
  opcode.mnemonic ++ " " ++ operand.toNat.repr

def Instruction.text : Instruction → String
  | pushInput index => Opcode.pushInput.withOperand index
  | pushBytes payload => Opcode.pushBytes.mnemonic ++ " " ++ hex payload
  | hashChildren => Opcode.hashChildren.mnemonic
  | popHash count => Opcode.popHash.withOperand count
  | peekHash count => Opcode.peekHash.withOperand count
  | matchInput index => Opcode.matchInput.withOperand index
  | unknown opcode operand =>
      "UNKNOWN(" ++ opcode.toNat.repr ++ ") " ++ operand.toNat.repr

def Op.text (op : Op) : String :=
  op.instruction.text

/-- Line of an op: its position, right-aligned to four columns, and its text. -/
def Op.line (position : Nat) (op : Op) : String :=
  paddedDecimal 4 position ++ ": " ++ op.text ++ "\n"

def Program.listing (program : Program) : String :=
  (program.ops.zipIdx.map fun (op, position) => op.line position).foldl (· ++ ·)
    (program.metadata.text ++ "\n")

end MerkleStack
