/-
The stack machine that runs a program over its inputs.  Values are hashed in the
order in which they leave the stack, the last one pushed first.
-/
import MerkleStack.Hasher
import MerkleStack.Program

namespace MerkleStack

/-- Where a machine is in its run. -/
inductive Phase
  | ready
  | running
  | halted
deriving DecidableEq, Repr

/-- A machine: `ip` is the position of the next op, `pending` holds the ops from
there on, and `stack` has its top first. -/
structure Machine where
  metadata : Metadata
  inputs : List Bytes
  hasher : Hasher
  ip : Nat
  pending : List Op
  stack : List Bytes

namespace Machine

/-- A machine at the start of a program.  The input count is checked first, then
the hash identifier, then the declared length. -/
def start (program : Program) (inputs : List Bytes) : Except ConfigError Machine :=
  if program.metadata.inputCount.toNat = inputs.length then do
    let function ← program.metadata.function
    let size ← function.resolveSize program.metadata.outputLength
    return {
      metadata := program.metadata
      inputs := inputs
      hasher := Hasher.new function size
      ip := 0
      pending := program.ops
      stack := [] }
  else
    .error (.inputCount program.metadata.inputCount inputs.length)

def function (machine : Machine) : HashFunction :=
  machine.hasher.function

def depth (machine : Machine) : Nat :=
  machine.stack.length

def done (machine : Machine) : Bool :=
  machine.pending.isEmpty

def phase (machine : Machine) : Phase :=
  if machine.done then .halted
  else if machine.ip = 0 then .ready
  else .running

/-- An input by its index, which the declared count bounds. -/
def input (machine : Machine) (index : UInt64) : Except Error Bytes :=
  if index.toNat < machine.metadata.inputCount.toNat then
    match machine.inputs[index.toNat]? with
    | some value => .ok value
    | none => .error (.program (.inputMissing index machine.inputs.length))
  else
    .error (.program (.inputOutOfBounds index machine.metadata.inputCount))

def push (machine : Machine) (value : Bytes) : Machine :=
  { machine with stack := value :: machine.stack }

/-- Digest of the `count` values on top, the top one first. -/
def digestTop (machine : Machine) (count : Nat) : Except Error (Bytes × Hasher) :=
  let top := machine.stack.take count
  if top.length = count then
    machine.hasher.sumOf top
  else
    .error (.program (.stackUnderflow count machine.depth))

def pushInput (machine : Machine) (index : UInt64) : Except Error Unit × Machine :=
  match machine.input index with
  | .ok value => (.ok (), machine.push value)
  | .error cause => (.error cause, machine)

/-- Replace `count` values by their digest. -/
def popHash (machine : Machine) (count : Nat) : Except Error Unit × Machine :=
  match machine.digestTop count with
  | .ok (digest, hasher) =>
      (.ok (),
        { machine with hasher, stack := digest :: machine.stack.drop count })
  | .error cause => (.error cause, machine)

/-- Push the digest of `count` values, which stay. -/
def peekHash (machine : Machine) (count : Nat) : Except Error Unit × Machine :=
  match machine.digestTop count with
  | .ok (digest, hasher) =>
      (.ok (), { machine with hasher, stack := digest :: machine.stack })
  | .error cause => (.error cause, machine)

/-- Remove the top value and compare it with an input.  The index is checked
before the value is removed. -/
def matchInput (machine : Machine) (index : UInt64) : Except Error Unit × Machine :=
  match machine.input index, machine.stack with
  | .error cause, _ => (.error cause, machine)
  | .ok _, [] => (.error (.program (.stackUnderflow 1 0)), machine)
  | .ok expected, value :: rest =>
      if value = expected then
        (.ok (), { machine with stack := rest })
      else
        (.error (.valueMismatch index value expected), { machine with stack := rest })

def execute (machine : Machine) : Instruction → Except Error Unit × Machine
  | .pushInput index => machine.pushInput index
  | .pushBytes payload => (.ok (), machine.push payload)
  | .hashChildren =>
      if machine.metadata.branchingFactor < 1 then
        (.error (.program (.badBranchingFactor machine.metadata.branchingFactor)),
          machine)
      else
        machine.popHash machine.metadata.branchingFactor.toNat
  | .popHash count => machine.popHash count.toNat
  | .peekHash count => machine.peekHash count.toNat
  | .matchInput index => machine.matchInput index
  | .unknown opcode _ => (.error (.program (.unknownOpcode opcode)), machine)

/-- Run the next op and go on to the one after it, even if it fails. -/
def step (machine : Machine) : Except Error Unit × Machine :=
  match machine.pending with
  | [] => (.error (.program .pastEnd), machine)
  | op :: rest =>
      { machine with ip := machine.ip + 1, pending := rest }.execute op.instruction

/-- Run as many ops as the list is long, up to the first failure. -/
def runThrough : List Op → Machine → Except Error Unit × Machine
  | [], machine => (.ok (), machine)
  | _ :: rest, machine =>
      match machine.step with
      | (.ok (), next) => runThrough rest next
      | (.error cause, next) => (.error cause, next)

/-- Run all pending ops, up to the first failure. -/
def run (machine : Machine) : Except Error Unit × Machine :=
  runThrough machine.pending machine

/-- The only value left on the stack. -/
def output (machine : Machine) : Except Error Bytes :=
  match machine.stack with
  | [value] => .ok value
  | _ => .error (.program (.finalStackSize machine.depth))

end Machine

end MerkleStack
