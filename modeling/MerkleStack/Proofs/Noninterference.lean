/-
What runs read.  Of an op they read the opcode, and the operand or the payload only if the
opcode uses it.  Of everything around the ops they read the digest and the declared count,
the branching factor only for ops that hash children, and only the inputs that are named.
Machines that agree in all this cannot be told apart: calls give them the same results and
the same stacks, also after some of them failed.
-/
import MerkleStack.Proofs.Stepping

namespace MerkleStack

namespace Opcode

/-- Whether ops with an opcode use their operand. -/
def usesIndex : Opcode → Bool
  | pushInput | popHash | peekHash | matchInput => true
  | pushBytes | hashChildren => false

/-- Whether the operand is the index of an input. -/
def namesInput : Opcode → Bool
  | pushInput | matchInput => true
  | pushBytes | hashChildren | popHash | peekHash => false

end Opcode

/-- Whether ops agree in the fields that are read.  Of an op that cannot be run, only the
opcode is. -/
structure Op.ReadAlike (op other : Op) : Prop where
  opcode_eq : op.opcode = other.opcode
  index_eq : ∀ opcode ∈ op.opcode?, opcode.usesIndex → op.index = other.index
  payload_eq : op.opcode? = some .pushBytes → op.payload = other.payload

theorem Op.ReadAlike.opcode?_eq {op other : Op} (halike : op.ReadAlike other) :
    other.opcode? = op.opcode? := by
  rw [opcode?, opcode?, halike.opcode_eq]

namespace Setting

/-- Whether settings agree in what an op reads of them. -/
structure AgreesFor (setting other : Setting) (op : Op) : Prop where
  digest_eq : setting.digest = other.digest
  inputCount_eq : setting.inputCount = other.inputCount
  branchingFactor_eq : op.opcode? = some .hashChildren →
    setting.branchingFactor = other.branchingFactor
  inputs_eq : ∀ opcode ∈ op.opcode?, opcode.namesInput →
    setting.inputs[op.index.toNat]? = other.inputs[op.index.toNat]?

variable {setting other : Setting} {op twin : Op}

namespace AgreesFor

theorem input_eq (hagrees : setting.AgreesFor other op) {opcode : Opcode}
    (hopcode : op.opcode? = some opcode) (hnames : opcode.namesInput) :
    setting.input op.index = other.input op.index := by
  rw [input, input, hagrees.inputs_eq opcode hopcode hnames, hagrees.inputCount_eq]

theorem digestTop_eq (hagrees : setting.AgreesFor other op) (count : Nat)
    (stack : List Bytes) : setting.digestTop count stack = other.digestTop count stack := by
  rw [digestTop, digestTop, hagrees.digest_eq]

end AgreesFor

/-- What is not read makes no difference to an op. -/
theorem eval_readAlike (halike : op.ReadAlike twin) (hagrees : setting.AgreesFor other op)
    (stack : List Bytes) :
    setting.eval stack op.instruction = other.eval stack twin.instruction := by
  rw [Op.instruction, Op.instruction, halike.opcode?_eq]
  cases hopcode : op.opcode? with
  | none => simp only [eval, halike.opcode_eq]
  | some opcode =>
      have hindex := halike.index_eq opcode hopcode
      have hinput := hagrees.input_eq hopcode
      cases opcode with
      | pushInput => simp only [eval, ← hindex rfl, hinput rfl]
      | pushBytes => simp only [eval, halike.payload_eq hopcode]
      | hashChildren =>
          simp only [eval, hagrees.branchingFactor_eq hopcode, hagrees.digestTop_eq]
      | popHash => simp only [eval, ← hindex rfl, hagrees.digestTop_eq]
      | peekHash => simp only [eval, ← hindex rfl, hagrees.digestTop_eq]
      | matchInput => simp only [eval, ← hindex rfl, hinput rfl]

end Setting

namespace Machine

variable {left right : Machine}

/-- Machines that have got equally far, to the same values, and that agree in all that
their ops to come read. -/
structure Indistinct (left right : Machine) : Prop where
  supplied : left.setting.Supplied
  supplied' : right.setting.Supplied
  ip_eq : left.ip = right.ip
  stack_eq : left.stack = right.stack
  pending : List.Forall₂
    (fun op twin => left.setting.AgreesFor right.setting op ∧ op.ReadAlike twin)
    left.pending right.pending

namespace Indistinct

/-- A step keeps machines indistinct, also a step that fails. -/
theorem step (halike : left.Indistinct right) :
    left.step.1 = right.step.1 ∧ left.step.2.Indistinct right.step.2 := by
  have hleft : left.Follows left.setting left.pending left.stack :=
    ⟨halike.supplied, rfl, rfl, rfl⟩
  have hright : right.Follows right.setting right.pending left.stack :=
    ⟨halike.supplied', rfl, rfl, halike.stack_eq.symm⟩
  have hpending := halike.pending
  generalize left.pending = ops at hleft hpending
  generalize right.pending = others at hright hpending
  cases hpending with
  | nil =>
      rw [hleft.step_nil, hright.step_nil]
      exact ⟨rfl, halike⟩
  | cons hop hrest =>
      have heval := Setting.eval_readAlike hop.2 hop.1 left.stack
      have hnext := hleft.step
      have hnext' := hright.step
      refine ⟨?_, ?_, ?_, ?_, ?_, ?_⟩
      · rw [hleft.step_result, hright.step_result, heval]
      · rw [hnext.setting_eq]
        exact halike.supplied
      · rw [hnext'.setting_eq]
        exact halike.supplied'
      · rw [hleft.ip_step, hright.ip_step, halike.ip_eq]
      · rw [hnext.stack_eq, hnext'.stack_eq, Setting.settle, Setting.settle, heval]
      · rw [hnext.setting_eq, hnext'.setting_eq, hnext.pending_eq, hnext'.pending_eq]
        exact hrest

theorem runThrough (halike : left.Indistinct right) {ops others : List Op}
    (hlength : ops.length = others.length) :
    (runThrough ops left).1 = (runThrough others right).1 ∧
      (runThrough ops left).2.Indistinct (runThrough others right).2 := by
  induction ops generalizing others left right with
  | nil =>
      obtain rfl := List.eq_nil_of_length_eq_zero hlength.symm
      exact ⟨rfl, halike⟩
  | cons op rest ih =>
      cases others with
      | nil => cases hlength
      | cons other others =>
          obtain ⟨hresult, hnext⟩ := halike.step
          cases hstep : left.step.1 with
          | ok done =>
              have hstep' : right.step.1 = .ok () := hresult.symm.trans hstep
              rw [runThrough_cons_of_ok hstep, runThrough_cons_of_ok hstep']
              exact ih hnext (Nat.succ.inj hlength)
          | error cause =>
              have hstep' : right.step.1 = .error cause := hresult.symm.trans hstep
              rw [runThrough_cons_of_error hstep, runThrough_cons_of_error hstep']
              exact ⟨rfl, hnext⟩

theorem call (halike : left.Indistinct right) (next : Call) :
    (left.call next).1 = (right.call next).1 ∧
      (left.call next).2.Indistinct (right.call next).2 := by
  cases next with
  | step => exact halike.step
  | run => exact halike.runThrough halike.pending.length_eq

theorem afterCalls (halike : left.Indistinct right) (calls : List Call) :
    (left.afterCalls calls).Indistinct (right.afterCalls calls) := by
  induction calls generalizing left right with
  | nil => exact halike
  | cons next rest ih => exact ih (halike.call next).2

theorem output_eq (halike : left.Indistinct right) : left.output = right.output := by
  rw [output, output, depth, depth, halike.stack_eq]

end Indistinct

end Machine

/-- Programs and inputs that agree in all that is read. -/
structure ReadAlike (first second : Program) (inputs others : List Bytes) : Prop where
  hashId_eq : first.metadata.hashId = second.metadata.hashId
  outputLength_eq : first.metadata.outputLength = second.metadata.outputLength
  inputCount_eq : first.metadata.inputCount = second.metadata.inputCount
  branchingFactor_eq : (∃ op ∈ first.ops, op.opcode? = some .hashChildren) →
    first.metadata.branchingFactor = second.metadata.branchingFactor
  ops : List.Forall₂ Op.ReadAlike first.ops second.ops
  length_eq : inputs.length = others.length
  inputs_eq : ∀ op ∈ first.ops, ∀ opcode ∈ op.opcode?, opcode.namesInput →
    inputs[op.index.toNat]? = others[op.index.toNat]?

namespace ReadAlike

variable {first second : Program} {inputs others : List Bytes}

theorem function_eq (halike : ReadAlike first second inputs others) :
    first.metadata.function = second.metadata.function := by
  rw [Metadata.function, Metadata.function, halike.hashId_eq]

theorem indistinct_initial (halike : ReadAlike first second inputs others)
    (hcount : first.metadata.inputCount.toNat = inputs.length) (function : HashFunction)
    (size : Nat) :
    (Machine.initial first inputs function size).Indistinct
      (Machine.initial second others function size) := by
  have hcount' : second.metadata.inputCount.toNat = others.length := by
    rw [← halike.inputCount_eq, ← halike.length_eq, hcount]
  refine ⟨hcount, hcount', rfl, rfl, (List.forall₂_and_left _ _).2 ⟨?_, halike.ops⟩⟩
  intro op hop
  refine ⟨rfl, halike.inputCount_eq, ?_, halike.inputs_eq op hop⟩
  intro hopcode
  exact halike.branchingFactor_eq ⟨op, hop, hopcode⟩

/-- The checks at the start read nothing in which the two differ. -/
theorem start_eq (halike : ReadAlike first second inputs others) :
    Machine.start second others = (Machine.start first inputs).map fun left =>
      { left with metadata := second.metadata, inputs := others, pending := second.ops } := by
  rw [Machine.start, Machine.start, ← halike.inputCount_eq, ← halike.length_eq,
    ← halike.function_eq, ← halike.outputLength_eq]
  split
  · cases first.metadata.function with
    | error cause => rfl
    | ok function =>
        simp only [bind, Except.bind]
        cases function.resolveSize first.metadata.outputLength <;> rfl
  · rfl

/-- Both are refused with one cause, or both start and cannot be told apart. -/
theorem start_cases (halike : ReadAlike first second inputs others) :
    (∃ cause, Machine.start first inputs = .error cause ∧
      Machine.start second others = .error cause) ∨
    ∃ left right, Machine.start first inputs = .ok left ∧
      Machine.start second others = .ok right ∧ left.Indistinct right := by
  rw [halike.start_eq]
  rcases Machine.start_cases first inputs with
    ⟨cause, hleft, _⟩ | ⟨function, size, hcount, _, _, hleft, _⟩
  · rw [hleft]
    exact Or.inl ⟨cause, rfl, rfl⟩
  · rw [hleft]
    exact Or.inr ⟨_, _, rfl, rfl, halike.indistinct_initial hcount function size⟩

theorem verify_eq (halike : ReadAlike first second inputs others) (expected : Bytes) :
    verify first inputs expected = verify second others expected := by
  rw [verify, verify]
  rcases halike.start_cases with
    ⟨cause, hleft, hright⟩ | ⟨left, right, hleft, hright, hindistinct⟩
  · rw [hleft, hright]
  · obtain ⟨hresult, hfinal⟩ := hindistinct.call .run
    have houtput := hfinal.output_eq
    rw [hleft, hright]
    simp only [Machine.call] at hresult houtput
    rcases hrun : left.run with ⟨result, final⟩
    rcases hrun' : right.run with ⟨result', final'⟩
    simp only [hrun, hrun'] at hresult houtput ⊢
    subst hresult
    cases result <;> simp only [houtput]

end ReadAlike

/-- Runs depend on nothing but what they read.  Programs and inputs that agree in the hash,
the declared count and the fields of each op that its opcode uses, in the branching factor
if children are hashed, and in the inputs that are named, are refused alike or driven alike:
any calls leave the same position and the same stack, and the next one returns the same
result, whatever failed before.  Verification comes to the same for every expected value. -/
theorem Machine.calls_noninterference {first second : Program} {inputs others : List Bytes}
    (halike : ReadAlike first second inputs others) :
    (∀ cause, start first inputs = .error cause ↔ start second others = .error cause) ∧
    (∀ left right, start first inputs = .ok left → start second others = .ok right →
      ∀ calls, (left.afterCalls calls).ip = (right.afterCalls calls).ip ∧
        (left.afterCalls calls).stack = (right.afterCalls calls).stack ∧
        ∀ next, ((left.afterCalls calls).call next).1 =
          ((right.afterCalls calls).call next).1) ∧
    ∀ expected, verify first inputs expected = verify second others expected := by
  refine ⟨?_, ?_, halike.verify_eq⟩
  · intro cause
    rcases halike.start_cases with ⟨refused, hleft, hright⟩ | ⟨_, _, hleft, hright, _⟩
    · rw [hleft, hright]
    · simp [hleft, hright]
  · intro left right hleft hright calls
    rcases halike.start_cases with ⟨_, hrefused, _⟩ | ⟨_, _, hleft', hright', hindistinct⟩
    · cases hrefused.symm.trans hleft
    · cases hleft'.symm.trans hleft
      cases hright'.symm.trans hright
      have hreached := hindistinct.afterCalls calls
      exact ⟨hreached.ip_eq, hreached.stack_eq, fun next => (hreached.call next).1⟩

/-- A named input and a literal are hashed behind an op that cannot be run.  The opcodes do
not use the note, the remark and the branching factor. -/
def annotated (note : UInt64) (remark : Bytes) (branchingFactor : UInt32) : Program :=
  ⟨Metadata.ofFunction .sha256 2 branchingFactor,
    [⟨1, 1, remark⟩, ⟨77, note, remark⟩, ⟨2, note, [5]⟩, ⟨4, 2, remark⟩]⟩

/-- An input that is not named differs too.  A second run goes on behind the failure. -/
theorem Machine.calls_noninterference_annotated :
    let first := annotated 0 [] 0
    let second := annotated 9 [1, 2] 3
    ReadAlike first second [[7], [8]] [[], [8]] ∧
      ∃ left right, start first [[7], [8]] = .ok left ∧
        start second [[], [8]] = .ok right ∧
        (left.call .run).1 = .error (.program (.unknownOpcode 77)) ∧
        (right.call .run).1 = .error (.program (.unknownOpcode 77)) ∧
        (left.afterCalls [.run, .run]).ip = 4 ∧
        (left.afterCalls [.run, .run]).stack = (right.afterCalls [.run, .run]).stack ∧
        verify second [[], [8]] [] = .error (.program (.unknownOpcode 77)) := by
  intro first second
  have hops : List.Forall₂ Op.ReadAlike first.ops second.ops := by
    refine .cons ⟨rfl, ?_, ?_⟩ (.cons ⟨rfl, ?_, ?_⟩ (.cons ⟨rfl, ?_, ?_⟩
      (.cons ⟨rfl, ?_, ?_⟩ .nil))) <;> decide
  have halike : ReadAlike first second [[7], [8]] [[], [8]] := by
    refine ⟨rfl, rfl, rfl, ?_, hops, rfl, ?_⟩ <;> decide
  have hleft : start first [[7], [8]] = .ok (initial first [[7], [8]] .sha256 32) := rfl
  have hright : start second [[], [8]] = .ok (initial second [[], [8]] .sha256 32) := rfl
  obtain ⟨_, hcalls, hverify⟩ := calls_noninterference halike
  have hstacks := (hcalls _ _ hleft hright [.run, .run]).2.1
  have hfails := (hcalls _ _ hleft hright []).2.2 .run
  refine ⟨halike, _, _, hleft, hright, rfl, hfails.symm, rfl, hstacks, ?_⟩
  exact (hverify []).symm

end MerkleStack
