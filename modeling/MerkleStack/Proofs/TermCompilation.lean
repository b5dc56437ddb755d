/-
Hash terms can be verified.  The ops that compile a term leave its value on top of
whatever the stack held.  Children are pushed from last to first, so the first one is on
top when they are hashed.
-/
import MerkleStack.HashTerm
import MerkleStack.Proofs.Refinement

namespace MerkleStack

namespace HashTerm

mutual

/-- Whether the inputs that a term names are declared. -/
def Scoped (inputCount : UInt32) : HashTerm → Prop
  | input index => index.toNat < inputCount.toNat
  | literal _ => True
  | node children => ScopedAll inputCount children

def ScopedAll (inputCount : UInt32) : List HashTerm → Prop
  | [] => True
  | child :: rest => Scoped inputCount child ∧ ScopedAll inputCount rest

end

/-- The ops that hash `arity` values: the one with a count, and for the branching factor
also the one without. -/
inductive Hashing (branchingFactor : UInt32) (arity : Nat) : Op → Prop
  | popHash (count : UInt64) (hcount : count.toNat = arity) :
      Hashing branchingFactor arity (Op.popHash count)
  | hashChildren (hfactor : arity = branchingFactor.toNat) (hpos : 1 ≤ arity) :
      Hashing branchingFactor arity Op.hashChildren

mutual

/-- The ops that a term may be compiled to.  Every node has a choice of its own among the
ops that hash its children. -/
inductive Compiles (branchingFactor : UInt32) : HashTerm → List Op → Prop
  | input (index : UInt64) : Compiles branchingFactor (input index) [Op.pushInput index]
  | literal (bytes : Bytes) : Compiles branchingFactor (literal bytes) [Op.pushBytes bytes]
  | node {children : List HashTerm} {ops : List Op} {op : Op}
      (hchildren : CompilesAll branchingFactor children ops)
      (hop : Hashing branchingFactor children.length op) :
      Compiles branchingFactor (node children) (ops ++ [op])

/-- The ops that terms may be compiled to, the last term first. -/
inductive CompilesAll (branchingFactor : UInt32) : List HashTerm → List Op → Prop
  | nil : CompilesAll branchingFactor [] []
  | cons {child : HashTerm} {rest : List HashTerm} {first others : List Op}
      (hchild : Compiles branchingFactor child first)
      (hrest : CompilesAll branchingFactor rest others) :
      CompilesAll branchingFactor (child :: rest) (others ++ first)

end

theorem joined_eq_flatten (digest : Bytes → Bytes) (inputs : List Bytes)
    (terms : List HashTerm) :
    joined digest inputs terms = (terms.map (value digest inputs)).flatten := by
  rw [joined_eq_flatMap, List.flatMap_def]

theorem hashing_hashOp (branchingFactor : UInt32) (short : Bool) {arity : Nat}
    (harity : arity < 2 ^ 64) :
    Hashing branchingFactor arity (hashOp branchingFactor short arity) := by
  rw [hashOp]
  split
  · rename_i hshort
    exact Hashing.hashChildren hshort.2.1 hshort.2.2
  · exact Hashing.popHash _ (UInt64.toNat_ofNat_of_lt' harity)

variable (branchingFactor : UInt32) (short : List HashTerm → Bool)

theorem length_compile_pos (term : HashTerm) :
    0 < (compile branchingFactor short term).length := by
  cases term <;> simp [compile]

theorem length_le_length_compileAll (terms : List HashTerm) :
    terms.length ≤ (compileAll branchingFactor short terms).length := by
  induction terms with
  | nil => exact Nat.zero_le _
  | cons child rest ih =>
      have hchild := length_compile_pos branchingFactor short child
      rw [compileAll, List.length_append, List.length_cons]
      omega

mutual

/-- Every term compiles, as long as its ops can be counted by an operand. -/
theorem compiles_compile (term : HashTerm)
    (hlength : (compile branchingFactor short term).length < 2 ^ 64) :
    Compiles branchingFactor term (compile branchingFactor short term) := by
  cases term with
  | input index =>
      rw [compile]
      exact Compiles.input index
  | literal bytes =>
      rw [compile]
      exact Compiles.literal bytes
  | node children =>
      rw [compile, List.length_append, List.length_singleton] at hlength
      have hchildren := length_le_length_compileAll branchingFactor short children
      rw [compile]
      exact Compiles.node (compilesAll_compileAll children (by omega))
        (hashing_hashOp branchingFactor _ (by omega))

theorem compilesAll_compileAll (terms : List HashTerm)
    (hlength : (compileAll branchingFactor short terms).length < 2 ^ 64) :
    CompilesAll branchingFactor terms (compileAll branchingFactor short terms) := by
  cases terms with
  | nil =>
      rw [compileAll]
      exact CompilesAll.nil
  | cons child rest =>
      rw [compileAll, List.length_append] at hlength
      rw [compileAll]
      exact CompilesAll.cons (compiles_compile child (by omega))
        (compilesAll_compileAll rest (by omega))

end

end HashTerm

namespace Setting

variable {setting : Setting}

/-- An op that hashes as many values as lie on a stack replaces them by their digest. -/
theorem eval_hashing {op : Op} {values : List Bytes}
    (hop : HashTerm.Hashing setting.branchingFactor values.length op) (stack : List Bytes) :
    setting.eval (values ++ stack) op.instruction =
      .ok (setting.digest values.flatten :: stack) := by
  have harity : op.instruction.arity? setting.branchingFactor = some values.length ∧
      op.instruction.kept values.length (values ++ stack) = stack := by
    cases hop with
    | popHash count hcount => simp [Instruction.arity?, Instruction.kept, hcount]
    | hashChildren hfactor hpos =>
        rw [hfactor] at hpos
        simp [Instruction.arity?_hashChildren hpos, Instruction.kept, hfactor]
  have hdepth : values.length ≤ (values ++ stack).length := by simp
  rw [eval_of_le_length harity.1 hdepth, harity.2, List.take_left]

mutual

/-- The ops of a term push its value. -/
theorem evalOps_of_compiles (hsupplied : setting.Supplied) {term : HashTerm} {ops : List Op}
    (hcompiles : term.Compiles setting.branchingFactor ops)
    (hscoped : term.Scoped setting.inputCount) (stack : List Bytes) :
    setting.evalOps stack ops =
      .ok (term.value setting.digest setting.inputs :: stack) := by
  cases hcompiles with
  | input index =>
      rw [HashTerm.Scoped] at hscoped
      have heval : setting.eval stack (Op.pushInput index).instruction = _ :=
        eval_pushInput stack index
      rw [input_of_lt hsupplied hscoped] at heval
      rw [evalOps_cons_of_ok heval, HashTerm.value]
      rfl
  | literal bytes =>
      rw [HashTerm.value]
      rfl
  | node hchildren hop =>
      rw [HashTerm.Scoped] at hscoped
      have heval := evalOps_of_compilesAll hsupplied hchildren hscoped stack
      rw [← List.length_map (HashTerm.value setting.digest setting.inputs)] at hop
      rw [evalOps_append_of_ok heval, evalOps_cons_of_ok (eval_hashing hop stack),
        HashTerm.value, HashTerm.joined_eq_flatten]
      rfl

/-- The ops of terms push their values, the first one on top. -/
theorem evalOps_of_compilesAll (hsupplied : setting.Supplied) {terms : List HashTerm}
    {ops : List Op} (hcompiles : HashTerm.CompilesAll setting.branchingFactor terms ops)
    (hscoped : HashTerm.ScopedAll setting.inputCount terms) (stack : List Bytes) :
    setting.evalOps stack ops =
      .ok (terms.map (HashTerm.value setting.digest setting.inputs) ++ stack) := by
  cases hcompiles with
  | nil => rfl
  | cons hchild hrest =>
      rw [HashTerm.ScopedAll] at hscoped
      rw [evalOps_append_of_ok (evalOps_of_compilesAll hsupplied hrest hscoped.2 stack)]
      exact evalOps_of_compiles hsupplied hchild hscoped.1 _

end

end Setting

/-- Every hash term has programs that verify it.  Under metadata that are accepted, all
the ops that a term may be compiled to output its value, and the verdict tells whether it
is the expected one.  What the compiler writes is among them, whatever nodes it writes in
the short form, as long as the ops can be counted by an operand. -/
theorem verify_of_compiles {metadata : Metadata} {inputs : List Bytes}
    {function : HashFunction} {size : Nat} {term : HashTerm}
    (hcount : metadata.inputCount.toNat = inputs.length)
    (hfunction : metadata.function = .ok function)
    (hsize : function.resolveSize metadata.outputLength = .ok size)
    (hscoped : term.Scoped metadata.inputCount) (expected : Bytes) :
    (∀ ops, term.Compiles metadata.branchingFactor ops →
      verify ⟨metadata, ops⟩ inputs expected =
        .ok ⟨term.value (function.digest size) inputs == expected,
          term.value (function.digest size) inputs⟩) ∧
    ∀ short, (term.compile metadata.branchingFactor short).length < 2 ^ 64 →
      term.Compiles metadata.branchingFactor
        (term.compile metadata.branchingFactor short) := by
  constructor
  · intro ops hcompiles
    let setting : Setting :=
      ⟨function.digest size, metadata.branchingFactor, metadata.inputCount, inputs⟩
    have hsetting : (⟨metadata, ops⟩ : Program).setting inputs = .ok setting :=
      Program.setting_eq_ok hcount hfunction hsize
    have hsupplied : setting.Supplied := hcount
    have heval : setting.evalOps [] ops =
        .ok [term.value (function.digest size) inputs] :=
      Setting.evalOps_of_compiles hsupplied hcompiles hscoped []
    rw [verify_of_setting hsetting, heval]
    rfl
  · intro short hlength
    exact HashTerm.compiles_compile metadata.branchingFactor short term hlength

/-- A node over a node without children, an input, and a node with as many children as
the branching factor says. -/
def mixedTerm : HashTerm :=
  .node [.node [], .input 1, .node [.literal [1, 2], .input 0]]

def mixedMetadata : Metadata :=
  (Metadata.ofFunction .blake3Xof 2 2).declaring 1

theorem verify_mixedTerm :
    mixedTerm.compile 2 (fun _ => true) =
        [Op.pushInput 0, Op.pushBytes [1, 2], Op.hashChildren, Op.pushInput 1, Op.popHash 0,
          Op.popHash 3] ∧
      verify ⟨mixedMetadata, mixedTerm.compile 2 (fun _ => true)⟩ [[97], [98]] [240] =
        .ok ⟨true, [240]⟩ := by
  have hops : mixedTerm.compile 2 (fun _ => true) =
      [Op.pushInput 0, Op.pushBytes [1, 2], Op.hashChildren, Op.pushInput 1, Op.popHash 0,
        Op.popHash 3] := by
    simp [mixedTerm, HashTerm.compile, HashTerm.compileAll, HashTerm.hashOp]
  have hcount : mixedMetadata.inputCount.toNat = ([[97], [98]] : List Bytes).length := rfl
  have hsize : HashFunction.blake3Xof.resolveSize mixedMetadata.outputLength = .ok 1 := rfl
  have hscoped : mixedTerm.Scoped mixedMetadata.inputCount := by
    simp [mixedTerm, mixedMetadata, Metadata.ofFunction, Metadata.declaring, HashTerm.Scoped,
      HashTerm.ScopedAll]
  have hlength : (mixedTerm.compile 2 (fun _ => true)).length < 2 ^ 64 := by
    rw [hops]
    decide
  have hvalue : mixedTerm.value (HashFunction.blake3Xof.digest 1) [[97], [98]] = [240] := by
    decide +kernel
  obtain ⟨hverify, hcompiled⟩ := verify_of_compiles hcount rfl hsize hscoped [240]
  rw [hvalue] at hverify
  exact ⟨hops, hverify _ (hcompiled _ hlength)⟩

end MerkleStack
