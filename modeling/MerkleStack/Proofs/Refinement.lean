/-
The machine refines evaluation.  A machine follows a stack of values and a list of ops
to come; a step keeps this, whatever the hasher was used for before, so a run leaves
the stack, or stops with the error, that evaluation gives.
-/
import MerkleStack.Proofs.Absorption
import MerkleStack.Proofs.DigestLength
import MerkleStack.Proofs.Evaluation

namespace MerkleStack

/-- The hasher after an instruction that hashes some values, or none.  It stays spent
on what it hashed last. -/
def Hasher.after (hasher : Hasher) : Option (List Bytes) → Hasher
  | some values =>
      spend { hasher with read := (Absorbed.empty _).write values.flatten, spent := false }
  | none => hasher

namespace Machine

def setting (machine : Machine) : Setting :=
  ⟨machine.function.digest machine.hasher.size, machine.metadata.branchingFactor,
    machine.metadata.inputCount, machine.inputs⟩

/-- The values that an instruction would hash now. -/
def operands? (machine : Machine) (instruction : Instruction) : Option (List Bytes) :=
  instruction.operands? machine.metadata.branchingFactor machine.stack

/-- The result of an instruction and the machine after it, as evaluation has them. -/
def settled (machine : Machine) (instruction : Instruction) :
    Except Error Unit × Machine :=
  ((machine.setting.eval machine.stack instruction).map fun _ => (),
    { machine with
      hasher := machine.hasher.after (machine.operands? instruction)
      stack := machine.setting.settle machine.stack instruction })

theorem setting_settled (machine : Machine) (instruction : Instruction) :
    (machine.settled instruction).2.setting = machine.setting := by
  rw [settled]
  cases machine.operands? instruction <;> rfl

theorem input_eq {machine : Machine} (hsupplied : machine.setting.Supplied)
    (index : UInt64) : machine.input index = machine.setting.input index := by
  change machine.metadata.inputCount.toNat = machine.inputs.length at hsupplied
  by_cases hindex : index.toNat < machine.inputs.length
  · simp [input, Setting.input, setting, hsupplied, hindex]
  · simp [input, Setting.input, setting, hsupplied, hindex]

theorem digestTop_eq (machine : Machine) (count : Nat) :
    machine.digestTop count =
      (machine.setting.digestTop count machine.stack).map
        fun digest => (digest, machine.hasher.after (some (machine.stack.take count))) := by
  by_cases hdepth : machine.stack.length < count
  · have hshort : (machine.stack.take count).length ≠ count := by
      rw [List.length_take]
      omega
    simp only [digestTop, Setting.digestTop, hdepth, hshort, ↓reduceIte]
    rfl
  · have hlong : (machine.stack.take count).length = count := by
      rw [List.length_take]
      omega
    simp only [digestTop, Setting.digestTop, hdepth, hlong, ↓reduceIte, Hasher.sumOf_eq]
    rfl

theorem hashTop_eq (machine : Machine) (instruction : Instruction) (count : Nat)
    (harity : instruction.arity? machine.setting.branchingFactor = some count) :
    (match machine.digestTop count with
      | .ok (digest, hasher) =>
          (.ok (), { machine with
            hasher, stack := digest :: instruction.kept count machine.stack })
      | .error cause => (.error cause, machine)) = machine.settled instruction := by
  have hoperands : machine.operands? instruction =
      if machine.stack.length < count then none else some (machine.stack.take count) := by
    change instruction.arity? machine.metadata.branchingFactor = some count at harity
    rw [operands?, Instruction.operands?, harity]
  rw [digestTop_eq, settled, Setting.settle, Setting.eval_of_arity? _ harity, hoperands]
  by_cases hdepth : machine.stack.length < count
  · simp only [Setting.digestTop, hdepth, ↓reduceIte]
    rfl
  · simp only [Setting.digestTop, hdepth, ↓reduceIte]
    rfl

theorem hashChildren_eq (machine : Machine) :
    machine.execute .hashChildren = machine.settled .hashChildren := by
  rw [execute]
  by_cases hfactor : machine.metadata.branchingFactor < 1
  · have hoperands : machine.operands? .hashChildren = none := by
      rw [operands?, Instruction.operands?, Instruction.arity?, if_pos hfactor]
    have heval : machine.setting.eval machine.stack .hashChildren = _ :=
      Setting.eval_hashChildren_of_lt machine.stack hfactor
    rw [if_pos hfactor, settled, Setting.settle_of_error heval, heval, hoperands]
    rfl
  · rw [if_neg hfactor]
    exact hashTop_eq machine .hashChildren _ (if_neg hfactor)

theorem matchInput_eq {machine : Machine} (hsupplied : machine.setting.Supplied)
    (index : UInt64) : machine.matchInput index = machine.settled (.matchInput index) := by
  rw [matchInput, input_eq hsupplied, settled]
  cases hinput : machine.setting.input index with
  | error cause =>
      have heval := Setting.eval_matchInput_error hinput machine.stack
      rw [Setting.settle_of_error heval, heval, Setting.leftover_of_input hinput]
      rfl
  | ok expected =>
      rcases machine with ⟨metadata, inputs, hasher, ip, pending, stack⟩
      cases stack with
      | nil =>
          have heval := Setting.eval_matchInput_nil hinput
          simp only [Setting.settle_of_error heval, heval]
          rfl
      | cons value rest =>
          have heval := Setting.eval_matchInput_cons hinput value rest
          by_cases hvalue : value = expected
          · rw [if_pos hvalue] at heval
            simp only [Setting.settle_of_ok heval, heval]
            exact if_pos hvalue
          · rw [if_neg hvalue] at heval
            simp only [Setting.settle_of_error heval, heval]
            exact if_neg hvalue

/-- A machine carries every instruction out as evaluation does. -/
theorem execute_eq {machine : Machine} (hsupplied : machine.setting.Supplied)
    (instruction : Instruction) :
    machine.execute instruction = machine.settled instruction := by
  cases instruction with
  | pushInput index =>
      rw [execute, pushInput, input_eq hsupplied, settled, Setting.settle,
        Setting.eval_pushInput]
      cases hinput : machine.setting.input index with
      | ok value => rfl
      | error cause =>
          simp only [Except.map]
          rw [Setting.leftover_of_input hinput]
          rfl
  | pushBytes payload => rfl
  | hashChildren => exact hashChildren_eq machine
  | popHash count => exact hashTop_eq machine (.popHash count) _ rfl
  | peekHash count => exact hashTop_eq machine (.peekHash count) _ rfl
  | matchInput index => exact matchInput_eq hsupplied index
  | unknown opcode operand => rfl

/-- The machine past its next op, before that op is carried out. -/
def past (machine : Machine) (rest : List Op) : Machine :=
  { machine with ip := machine.ip + 1, pending := rest }

/-- A machine with some ops to come in some setting, and some values on its stack. -/
structure Follows (machine : Machine) (setting : Setting) (ops : List Op)
    (stack : List Bytes) : Prop where
  supplied : setting.Supplied
  setting_eq : machine.setting = setting
  pending_eq : machine.pending = ops
  stack_eq : machine.stack = stack

namespace Follows

variable {machine : Machine} {setting : Setting} {stack : List Bytes}

theorem step_eq {op : Op} {rest : List Op}
    (hfollows : machine.Follows setting (op :: rest) stack) :
    machine.step = (machine.past rest).settled op.instruction := by
  have hsupplied : (machine.past rest).setting.Supplied :=
    hfollows.setting_eq ▸ hfollows.supplied
  rw [← execute_eq hsupplied, Machine.step, hfollows.pending_eq]
  rfl

theorem step_nil (hfollows : machine.Follows setting [] stack) :
    machine.step = (.error (.program .pastEnd), machine) := by
  rw [Machine.step, hfollows.pending_eq]

theorem step_result {op : Op} {rest : List Op}
    (hfollows : machine.Follows setting (op :: rest) stack) :
    machine.step.1 = (setting.eval stack op.instruction).map fun _ => () := by
  rw [hfollows.step_eq, ← hfollows.setting_eq, ← hfollows.stack_eq]
  rfl

theorem ip_step {op : Op} {rest : List Op}
    (hfollows : machine.Follows setting (op :: rest) stack) :
    machine.step.2.ip = machine.ip + 1 := by
  rw [hfollows.step_eq]
  rfl

/-- A step keeps a machine following, also a step that fails. -/
theorem step {op : Op} {rest : List Op}
    (hfollows : machine.Follows setting (op :: rest) stack) :
    machine.step.2.Follows setting rest (setting.settle stack op.instruction) := by
  rw [hfollows.step_eq]
  refine ⟨hfollows.supplied, ?_, rfl, ?_⟩
  · rw [setting_settled]
    exact hfollows.setting_eq
  · rw [← hfollows.setting_eq, ← hfollows.stack_eq]
    rfl

end Follows

/-- The stack that a run leaves, or the error that it stops with. -/
def leaves (outcome : Except Error Unit × Machine) : Except Error (List Bytes) :=
  outcome.1.map fun _ => outcome.2.stack

theorem leaves_runThrough {machine : Machine} {setting : Setting} {ops : List Op}
    {stack : List Bytes} (hfollows : machine.Follows setting ops stack) :
    leaves (runThrough ops machine) = setting.evalOps stack ops := by
  induction ops generalizing machine stack with
  | nil =>
      rw [← hfollows.stack_eq]
      rfl
  | cons op rest ih =>
      have hresult := hfollows.step_result
      have hnext := hfollows.step
      rcases hstep : machine.step with ⟨result, next⟩
      rw [hstep] at hresult hnext
      rw [runThrough, hstep]
      cases heval : setting.eval stack op.instruction with
      | error cause =>
          rw [heval] at hresult
          obtain rfl : result = .error cause := hresult
          rw [Setting.evalOps_cons_of_error heval]
          rfl
      | ok after =>
          rw [heval] at hresult
          obtain rfl : result = .ok () := hresult
          rw [Setting.settle_of_ok heval] at hnext
          rw [Setting.evalOps_cons_of_ok heval]
          exact ih hnext

/-- The machine after a number of steps, whether or not they succeed. -/
def steps : Nat → Machine → Machine
  | 0, machine => machine
  | count + 1, machine => steps count machine.step.2

theorem Follows.steps {machine : Machine} {setting : Setting} {before rest : List Op}
    {stack after : List Bytes} (hfollows : machine.Follows setting (before ++ rest) stack)
    (heval : setting.evalOps stack before = .ok after) :
    (machine.steps before.length).Follows setting rest after := by
  induction before generalizing machine stack with
  | nil =>
      rw [Setting.evalOps_nil] at heval
      cases heval
      exact hfollows
  | cons op before ih =>
      have hnext := hfollows.step
      cases hop : setting.eval stack op.instruction with
      | error cause =>
          rw [Setting.evalOps_cons_of_error hop] at heval
          cases heval
      | ok next =>
          rw [Setting.settle_of_ok hop] at hnext
          rw [Setting.evalOps_cons_of_ok hop] at heval
          exact ih hnext heval

/-- The machine that a program starts with under a function and a digest size. -/
def initial (program : Program) (inputs : List Bytes) (function : HashFunction)
    (size : Nat) : Machine where
  metadata := program.metadata
  inputs := inputs
  hasher := Hasher.new function size
  ip := 0
  pending := program.ops
  stack := []

theorem setting_initial (program : Program) (inputs : List Bytes) (function : HashFunction)
    (size : Nat) :
    (initial program inputs function size).setting =
      ⟨function.digest size, program.metadata.branchingFactor,
        program.metadata.inputCount, inputs⟩ := by
  rw [← function.digest_digestSize]
  rfl

/-- A machine is refused with the cause for which there is no setting to evaluate in,
or it starts in that setting. -/
theorem start_cases (program : Program) (inputs : List Bytes) :
    (∃ cause, start program inputs = .error cause ∧
      program.setting inputs = .error cause) ∨
    ∃ function size, program.metadata.inputCount.toNat = inputs.length ∧
      program.metadata.function = .ok function ∧
      function.resolveSize program.metadata.outputLength = .ok size ∧
      start program inputs = .ok (initial program inputs function size) ∧
      program.setting inputs = .ok (initial program inputs function size).setting := by
  rw [start, Program.setting]
  by_cases hcount : program.metadata.inputCount.toNat = inputs.length
  · simp only [hcount, ne_eq, not_true_eq_false, ↓reduceIte, Metadata.digest_eq]
    cases hfunction : program.metadata.function with
    | error cause => exact Or.inl ⟨cause, rfl, rfl⟩
    | ok function =>
        cases hsize : function.resolveSize program.metadata.outputLength with
        | error cause =>
            simp only [bind, Except.bind, hsize]
            exact Or.inl ⟨cause, rfl, rfl⟩
        | ok size =>
            simp only [bind, Except.bind, hsize, setting_initial]
            exact Or.inr ⟨function, size, trivial, rfl, hsize, rfl, rfl⟩
  · simp only [hcount, ne_eq, not_false_eq_true, ↓reduceIte]
    exact Or.inl ⟨_, rfl, rfl⟩

/-- What stands behind a machine that starts. -/
theorem start_eq_ok {program : Program} {inputs : List Bytes} {machine : Machine} :
    start program inputs = .ok machine ↔
      ∃ function size, program.metadata.inputCount.toNat = inputs.length ∧
        program.metadata.function = .ok function ∧
        function.resolveSize program.metadata.outputLength = .ok size ∧
        machine = initial program inputs function size := by
  constructor
  · intro hstart
    rcases start_cases program inputs with
      ⟨cause, hcause, _⟩ | ⟨function, size, hcount, hfunction, hsize, hinitial, _⟩
    · rw [hcause] at hstart
      cases hstart
    · rw [hinitial] at hstart
      cases hstart
      exact ⟨function, size, hcount, hfunction, hsize, rfl⟩
  · rintro ⟨function, size, hcount, hfunction, hsize, rfl⟩
    rw [start, if_pos hcount, hfunction]
    simp only [bind, Except.bind, hsize]
    rfl

theorem initial_follows {program : Program} {inputs : List Bytes}
    (hcount : program.metadata.inputCount.toNat = inputs.length) (function : HashFunction)
    (size : Nat) :
    (initial program inputs function size).Follows
      (initial program inputs function size).setting program.ops [] :=
  ⟨hcount, rfl, rfl, rfl⟩

end Machine

def Verdict.ofStack (expected : Bytes) : List Bytes → Except Error Verdict
  | [output] => .ok (Verdict.of output expected)
  | stack => .error (.program (.finalStackSize stack.length))

theorem verify_of_setting_error {program : Program} {inputs : List Bytes}
    {cause : ConfigError} (hsetting : program.setting inputs = .error cause)
    (expected : Bytes) : verify program inputs expected = .error (.config cause) := by
  rw [verify]
  rcases Machine.start_cases program inputs with ⟨_, hstart, hcause⟩ | ⟨_, _, _, _, _, _, hok⟩
  · rw [hsetting] at hcause
    cases hcause
    rw [hstart]
  · rw [hsetting] at hok
    cases hok

/-- A run is judged by the stack that its ops evaluate to. -/
theorem verify_of_setting {program : Program} {inputs : List Bytes} {setting : Setting}
    (hsetting : program.setting inputs = .ok setting) (expected : Bytes) :
    verify program inputs expected =
      (setting.evalOps [] program.ops).bind (Verdict.ofStack expected) := by
  rw [verify]
  rcases Machine.start_cases program inputs with
    ⟨_, _, hcause⟩ | ⟨function, size, hcount, _, _, hstart, hok⟩
  · rw [hsetting] at hcause
    cases hcause
  · rw [hsetting] at hok
    cases hok
    have hrun : (Machine.initial program inputs function size).run =
        Machine.runThrough program.ops (Machine.initial program inputs function size) := rfl
    rw [← Machine.leaves_runThrough (Machine.initial_follows hcount function size), hstart,
      ← hrun]
    simp only
    rcases (Machine.initial program inputs function size).run with ⟨cause | _, final⟩
    · rfl
    · rcases final with ⟨metadata, inputs, hasher, ip, pending, stack⟩
      rcases stack with _ | ⟨value, _ | ⟨second, rest⟩⟩ <;> rfl

/-- What stands behind a verdict. -/
theorem evalOps_of_verify {program : Program} {inputs : List Bytes} {expected : Bytes}
    {verdict : Verdict} (hverify : verify program inputs expected = .ok verdict) :
    ∃ function size, program.metadata.inputCount.toNat = inputs.length ∧
      program.metadata.function = .ok function ∧
      function.resolveSize program.metadata.outputLength = .ok size ∧
      Machine.start program inputs = .ok (Machine.initial program inputs function size) ∧
      (Machine.initial program inputs function size).setting.evalOps [] program.ops =
        .ok [verdict.output] := by
  rcases Machine.start_cases program inputs with
    ⟨cause, _, hsetting⟩ | ⟨function, size, hcount, hfunction, hsize, hstart, hsetting⟩
  · rw [verify_of_setting_error hsetting] at hverify
    cases hverify
  · refine ⟨function, size, hcount, hfunction, hsize, hstart, ?_⟩
    rw [verify_of_setting hsetting] at hverify
    cases hops : (Machine.initial program inputs function size).setting.evalOps []
        program.ops with
    | error cause =>
        rw [hops] at hverify
        cases hverify
    | ok stack =>
        rw [hops] at hverify
        rcases stack with _ | ⟨value, _ | ⟨second, rest⟩⟩ <;> cases hverify
        rfl

/-- Verification by a machine is evaluation: the same failing check, the same error of
the first op that fails, and the same verdict. -/
theorem verify_eq_evaluate (program : Program) (inputs : List Bytes) (expected : Bytes) :
    verify program inputs expected = evaluate program inputs expected := by
  rw [evaluate]
  cases hsetting : program.setting inputs with
  | error cause => exact verify_of_setting_error hsetting expected
  | ok setting => exact verify_of_setting hsetting expected

/-- Two inputs under SHA-256, and the digest of both. -/
def pairDigest : Program :=
  ⟨⟨1, 0, 2, 2⟩, [⟨1, 0, []⟩, ⟨1, 1, []⟩, ⟨3, 0, []⟩]⟩

/-- The digest is that of the second input before the first.  One byte string is accepted
and another is not; what is wrong first is told, in the metadata before the ops. -/
theorem verify_pairDigest :
    let digest := [195, 174, 252, 20, 238, 17, 49, 32, 29, 112, 93, 77, 166, 65, 228, 114, 158,
      64, 252, 209, 90, 13, 128, 1, 90, 157, 235, 161, 22, 73, 89, 249]
    verify pairDigest [[7], [8]] digest = .ok ⟨true, digest⟩ ∧
    verify pairDigest [[7], [8]] [8, 7] = .ok ⟨false, digest⟩ ∧
    verify ⟨⟨9, 1, 2, 2⟩, pairDigest.ops⟩ [[7]] digest = .error (.config (.inputCount 2 1)) ∧
    verify ⟨⟨9, 1, 2, 2⟩, pairDigest.ops⟩ [[7], [8]] digest =
      .error (.config (.unknownFunction 9)) ∧
    verify ⟨⟨1, 1, 2, 2⟩, pairDigest.ops⟩ [[7], [8]] digest =
      .error (.config (.lengthDeclared .sha256 1)) ∧
    verify ⟨⟨1, 0, 2, 2⟩, [⟨1, 0, []⟩, ⟨9, 1, []⟩, ⟨3, 0, []⟩]⟩ [[7], [8]] digest =
      .error (.program (.unknownOpcode 9)) ∧
    verify ⟨⟨1, 0, 2, 2⟩, [⟨1, 0, []⟩, ⟨1, 1, []⟩]⟩ [[7], [8]] digest =
      .error (.program (.finalStackSize 2)) := by
  intro digest
  refine ⟨?_, ?_, ?_, ?_, ?_, ?_, ?_⟩ <;>
    exact (verify_eq_evaluate _ _ _).trans (by decide +kernel)

end MerkleStack
