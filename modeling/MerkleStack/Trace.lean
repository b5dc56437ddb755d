/-
The diagnostics of a verification: what was set up, every op before it ran, the
op that failed, and the verdict.
-/
import MerkleStack.Verify

namespace MerkleStack

/-- How detailed an event is. -/
inductive Level
  | debug
  | trace
deriving DecidableEq, Repr

def Level.text : Level → String
  | debug => "DEBUG"
  | trace => "TRACE"

/-- One event of a verification. -/
inductive Event
  | constructed (function : HashFunction) (outputSize inputs ops : Nat)
  | step (ip : Nat) (opcode : UInt32) (operand : UInt64) (depth : Nat)
  | failed (ip : Nat) (cause : Error)
  | verified (verdict : Verdict)
deriving DecidableEq, Repr

namespace Event

def level : Event → Level
  | step .. => .trace
  | _ => .debug

def message : Event → String
  | constructed .. => "hash machine constructed"
  | step .. => "step"
  | failed .. => "hash program failed"
  | verified .. => "hash program verified"

def fields : Event → List (String × String)
  | constructed function outputSize inputs ops =>
      [("hash_function", function.name), ("output_size", outputSize.repr),
        ("inputs", inputs.repr), ("ops", ops.repr)]
  | step ip opcode operand depth =>
      [("ip", ip.repr), ("opcode", opcode.toNat.repr),
        ("operand", operand.toNat.repr), ("stack_depth", depth.repr)]
  | failed ip cause => [("ip", ip.repr), ("error", cause.message)]
  | verified verdict =>
      [("ok", if verdict.accepted then "true" else "false"),
        ("output", hex verdict.output)]

end Event

namespace Machine

/-- Run as many ops as the list is long, up to the first failure.  The log has its
last event first. -/
def traceThrough : List Op → Machine → List Event →
    (Except Error Unit × Machine) × List Event
  | [], machine, log => ((.ok (), machine), log)
  | op :: rest, machine, log =>
      let log := .step machine.ip op.opcode op.index machine.depth :: log
      match machine.step with
      | (.ok (), next) => traceThrough rest next log
      | (.error cause, next) =>
          ((.error cause, next), .failed machine.ip cause :: log)

/-- Run all pending ops, up to the first failure, and tell what happened. -/
def trace (machine : Machine) : (Except Error Unit × Machine) × List Event :=
  let (result, log) := traceThrough machine.pending machine []
  (result, log.reverse)

end Machine

/-- Verify a program and tell what happened.  A program whose metadata do not fit
leaves no event. -/
def verifyTraced (program : Program) (inputs : List Bytes) (expected : Bytes) :
    Except Error Verdict × List Event :=
  match Machine.start program inputs with
  | .error cause => (.error (.config cause), [])
  | .ok machine =>
      let opening : Event :=
        .constructed machine.function machine.hasher.size inputs.length
          program.ops.length
      match machine.trace with
      | ((.error cause, _), events) => (.error cause, opening :: events)
      | ((.ok (), final), events) =>
          match final.output with
          | .error cause => (.error cause, opening :: events)
          | .ok output =>
              let verdict := Verdict.of output expected
              (.ok verdict, opening :: events ++ [.verified verdict])

end MerkleStack
