/-
Ops as they are stored, with a raw opcode, and the instructions that they stand
for.  Every opcode can be stored; which ones can be run is decided when an op is
reached.
-/
import MerkleStack.Bytes

namespace MerkleStack

/-- The opcodes that can be run. -/
inductive Opcode
  | pushInput
  | pushBytes
  | hashChildren
  | popHash
  | peekHash
  | matchInput
deriving DecidableEq, Repr

namespace Opcode

/-- Number that an op stores. -/
def code : Opcode → UInt32
  | pushInput => 1
  | pushBytes => 2
  | hashChildren => 3
  | popHash => 4
  | peekHash => 5
  | matchInput => 6

def mnemonic : Opcode → String
  | pushInput => "PUSH_INPUT"
  | pushBytes => "PUSH_BYTES"
  | hashChildren => "POP_CHILDREN_AND_HASH"
  | popHash => "POP_N_AND_HASH"
  | peekHash => "PEEK_N_AND_HASH"
  | matchInput => "MATCH_INPUT"

/-- All opcodes in the order of their numbers. -/
def all : List Opcode :=
  [pushInput, pushBytes, hashChildren, popHash, peekHash, matchInput]

/-- The opcode with a number, if it can be run. -/
def ofCode? (code : UInt32) : Option Opcode :=
  all.find? fun opcode => opcode.code == code

theorem ofCode?_code (opcode : Opcode) : ofCode? opcode.code = some opcode := by
  cases opcode <;> decide

theorem code_of_ofCode? {code : UInt32} {opcode : Opcode}
    (h : ofCode? code = some opcode) : opcode.code = code := by
  simpa using List.find?_some h

end Opcode

/-- An op as it is stored.  The operand `index` names an input or counts values;
only `PUSH_BYTES` uses `payload`. -/
structure Op where
  opcode : UInt32
  index : UInt64
  payload : Bytes
deriving DecidableEq, Repr, Inhabited

/-- What an op says, without the fields that its opcode does not use. -/
inductive Instruction
  | pushInput (index : UInt64)
  | pushBytes (payload : Bytes)
  | hashChildren
  | popHash (count : UInt64)
  | peekHash (count : UInt64)
  | matchInput (index : UInt64)
  | unknown (opcode : UInt32) (operand : UInt64)
deriving DecidableEq, Repr

namespace Op

def opcode? (op : Op) : Option Opcode :=
  Opcode.ofCode? op.opcode

/-- The instruction that an op stands for. -/
def instruction (op : Op) : Instruction :=
  match op.opcode? with
  | some .pushInput => .pushInput op.index
  | some .pushBytes => .pushBytes op.payload
  | some .hashChildren => .hashChildren
  | some .popHash => .popHash op.index
  | some .peekHash => .peekHash op.index
  | some .matchInput => .matchInput op.index
  | none => .unknown op.opcode op.index

/-- An op with an opcode that can be run, and no payload. -/
def ofIndex (opcode : Opcode) (index : UInt64) : Op :=
  ⟨opcode.code, index, []⟩

def pushInput (index : UInt64) : Op := ofIndex .pushInput index

def pushBytes (payload : Bytes) : Op := ⟨Opcode.pushBytes.code, 0, payload⟩

def hashChildren : Op := ofIndex .hashChildren 0

def popHash (count : UInt64) : Op := ofIndex .popHash count

def peekHash (count : UInt64) : Op := ofIndex .peekHash count

def matchInput (index : UInt64) : Op := ofIndex .matchInput index

@[simp] theorem instruction_pushInput (index : UInt64) :
    (pushInput index).instruction = .pushInput index := rfl

@[simp] theorem instruction_pushBytes (payload : Bytes) :
    (pushBytes payload).instruction = .pushBytes payload := rfl

@[simp] theorem instruction_hashChildren :
    hashChildren.instruction = .hashChildren := rfl

@[simp] theorem instruction_popHash (count : UInt64) :
    (popHash count).instruction = .popHash count := rfl

@[simp] theorem instruction_peekHash (count : UInt64) :
    (peekHash count).instruction = .peekHash count := rfl

@[simp] theorem instruction_matchInput (index : UInt64) :
    (matchInput index).instruction = .matchInput index := rfl

theorem instruction_eq_pushInput_iff {op : Op} {index : UInt64} :
    op.instruction = .pushInput index ↔ op.opcode? = some .pushInput ∧ op.index = index := by
  rw [instruction]
  split <;> simp_all

theorem instruction_eq_matchInput_iff {op : Op} {index : UInt64} :
    op.instruction = .matchInput index ↔ op.opcode? = some .matchInput ∧ op.index = index := by
  rw [instruction]
  split <;> simp_all

end Op

end MerkleStack
