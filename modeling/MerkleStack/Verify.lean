/-
Verification of a program: it is run on its inputs and its output is compared
with the expected value.
-/
import MerkleStack.Machine

namespace MerkleStack

/-- The output of a run that left one value, and whether it is the expected one. -/
structure Verdict where
  accepted : Bool
  output : Bytes
deriving DecidableEq, Repr

def Verdict.of (output expected : Bytes) : Verdict :=
  ⟨output == expected, output⟩

/-- Run a program on inputs and compare its output with the expected value.  An
output that differs is a verdict, not an error. -/
def verify (program : Program) (inputs : List Bytes) (expected : Bytes) :
    Except Error Verdict :=
  match Machine.start program inputs with
  | .error cause => .error (.config cause)
  | .ok machine =>
      match machine.run with
      | (.error cause, _) => .error cause
      | (.ok (), final) => final.output.map (Verdict.of · expected)

/-- Whether a program run on inputs gives the expected value. -/
def accepts (program : Program) (inputs : List Bytes) (expected : Bytes) :
    Except Error Bool :=
  (verify program inputs expected).map Verdict.accepted

end MerkleStack
