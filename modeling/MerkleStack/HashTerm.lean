/-
Hash terms: expressions over inputs and literal byte strings in which every node
is the digest of its children one after the other.  A term compiles to ops that
leave its value on the stack.
-/
import MerkleStack.Op

namespace MerkleStack

/-- A hash expression.  Nodes may have any number of children. -/
inductive HashTerm
  | input (index : UInt64)
  | literal (bytes : Bytes)
  | node (children : List HashTerm)

namespace HashTerm

mutual

def value (digest : Bytes → Bytes) (inputs : List Bytes) : HashTerm → Bytes
  | input index => inputs.getD index.toNat []
  | literal bytes => bytes
  | node children => digest (joined digest inputs children)

/-- Values of terms one after the other. -/
def joined (digest : Bytes → Bytes) (inputs : List Bytes) : List HashTerm → Bytes
  | [] => []
  | child :: rest => value digest inputs child ++ joined digest inputs rest

end

/-- The op that hashes `arity` values.  `short` asks for the op without a count,
which is there only for the branching factor. -/
def hashOp (branchingFactor : UInt32) (short : Bool) (arity : Nat) : Op :=
  if short ∧ arity = branchingFactor.toNat ∧ 1 ≤ arity then Op.hashChildren
  else Op.popHash (UInt64.ofNat arity)

mutual

/-- Ops that push the value of a term.  Children are pushed from last to first, as
the machine hashes the value on top first. -/
def compile (branchingFactor : UInt32) (short : List HashTerm → Bool) :
    HashTerm → List Op
  | input index => [Op.pushInput index]
  | literal bytes => [Op.pushBytes bytes]
  | node children =>
      compileAll branchingFactor short children ++
        [hashOp branchingFactor (short children) children.length]

def compileAll (branchingFactor : UInt32) (short : List HashTerm → Bool) :
    List HashTerm → List Op
  | [] => []
  | child :: rest =>
      compileAll branchingFactor short rest ++ compile branchingFactor short child

end

theorem joined_eq_flatMap (digest : Bytes → Bytes) (inputs : List Bytes)
    (terms : List HashTerm) :
    joined digest inputs terms = terms.flatMap (value digest inputs) := by
  induction terms with
  | nil => simp [joined]
  | cons child rest ih => simp [joined, ih]

end HashTerm

end MerkleStack
