/-
Evaluation op by op.  Every instruction that hashes is one case, whatever it does with
the values that it hashed, and a failure leaves a stack too.
-/
import MerkleStack.Evaluation

namespace MerkleStack

namespace Instruction

/-- Number of values that an instruction hashes, if it hashes. -/
def arity? (branchingFactor : UInt32) : Instruction → Option Nat
  | hashChildren => if branchingFactor < 1 then none else some branchingFactor.toNat
  | popHash count | peekHash count => some count.toNat
  | _ => none

theorem arity?_hashChildren {branchingFactor : UInt32}
    (hpos : 1 ≤ branchingFactor.toNat) :
    hashChildren.arity? branchingFactor = some branchingFactor.toNat := by
  rw [arity?, if_neg]
  intro hlt
  exact Nat.not_lt.2 hpos (UInt32.lt_iff_toNat_lt.1 hlt)

/-- The stack under the digest of `count` values.  Peeking keeps them. -/
def kept {α : Type} (count : Nat) (stack : List α) : Instruction → List α
  | peekHash _ => stack
  | _ => stack.drop count

theorem kept_map {α β : Type} (convert : α → β) (count : Nat) (stack : List α)
    (instruction : Instruction) :
    (instruction.kept count stack).map convert =
      instruction.kept count (stack.map convert) := by
  cases instruction <;> simp [kept]

/-- What lies under the values that are hashed is kept in any case. -/
theorem kept_append {α : Type} {count : Nat} {stack : List α} (hcount : count ≤ stack.length)
    (below : List α) (instruction : Instruction) :
    instruction.kept count (stack ++ below) = instruction.kept count stack ++ below := by
  cases instruction <;> simp [kept, List.drop_append_of_le_length hcount]

theorem mem_of_mem_kept {α : Type} {count : Nat} {stack : List α} {instruction : Instruction}
    {value : α} (hvalue : value ∈ instruction.kept count stack) : value ∈ stack := by
  cases instruction with
  | peekHash _ => exact hvalue
  | _ => exact List.mem_of_mem_drop hvalue

/-- The values that an instruction hashes, if they are all there. -/
def operands? (branchingFactor : UInt32) (stack : List Bytes) (instruction : Instruction) :
    Option (List Bytes) :=
  match instruction.arity? branchingFactor with
  | some count => if stack.length < count then none else some (stack.take count)
  | none => none

theorem operands?_eq_some {branchingFactor : UInt32} {stack values : List Bytes}
    {instruction : Instruction}
    (hoperands : instruction.operands? branchingFactor stack = some values) :
    instruction.arity? branchingFactor = some values.length ∧
      stack.take values.length = values := by
  rw [operands?] at hoperands
  split at hoperands
  · rename_i count harity
    by_cases hdepth : stack.length < count
    · rw [if_pos hdepth] at hoperands
      cases hoperands
    · rw [if_neg hdepth] at hoperands
      cases hoperands
      have hlength : (stack.take count).length = count := by
        rw [List.length_take]
        omega
      rw [hlength]
      exact ⟨harity, rfl⟩
  · cases hoperands

end Instruction

namespace Setting

variable {setting : Setting}

/-- Every input that is declared is there. -/
def Supplied (setting : Setting) : Prop :=
  setting.inputCount.toNat = setting.inputs.length

theorem input_eq_ok {index : UInt64} {value : Bytes} :
    setting.input index = .ok value ↔ setting.inputs[index.toNat]? = some value := by
  rw [input]
  cases setting.inputs[index.toNat]? <;> simp

theorem input_of_lt (hsupplied : setting.Supplied) {index : UInt64}
    (hindex : index.toNat < setting.inputCount.toNat) :
    setting.input index = .ok (setting.inputs.getD index.toNat []) := by
  rw [Supplied] at hsupplied
  rw [hsupplied] at hindex
  simp [input, hindex]

theorem input_of_not_lt (hsupplied : setting.Supplied) {index : UInt64}
    (hindex : ¬ index.toNat < setting.inputCount.toNat) :
    setting.input index = .error (.program (.inputOutOfBounds index setting.inputCount)) := by
  rw [Supplied] at hsupplied
  rw [hsupplied] at hindex
  simp [input, hindex]

/-- The stack that a failure leaves.  A value that differs from its input is gone, any
other failure leaves the stack as it was. -/
def leftover (stack : List Bytes) : Error → List Bytes
  | .valueMismatch .. => stack.tail
  | _ => stack

/-- The stack after an instruction, also after one that fails. -/
def settle (setting : Setting) (stack : List Bytes) (instruction : Instruction) :
    List Bytes :=
  match setting.eval stack instruction with
  | .ok after => after
  | .error cause => leftover stack cause

theorem settle_of_ok {stack after : List Bytes} {instruction : Instruction}
    (heval : setting.eval stack instruction = .ok after) :
    setting.settle stack instruction = after := by
  rw [settle, heval]

theorem settle_of_error {stack : List Bytes} {instruction : Instruction} {cause : Error}
    (heval : setting.eval stack instruction = .error cause) :
    setting.settle stack instruction = leftover stack cause := by
  rw [settle, heval]

theorem leftover_of_input {index : UInt64} {cause : Error}
    (hinput : setting.input index = .error cause) (stack : List Bytes) :
    leftover stack cause = stack := by
  rw [input] at hinput
  split at hinput
  · cases hinput
  · cases hinput
    rfl

theorem eval_pushInput (stack : List Bytes) (index : UInt64) :
    setting.eval stack (.pushInput index) = (setting.input index).map (· :: stack) := rfl

theorem pushInput_of_eval (setting : Setting) {index : UInt64} {stack after : List Bytes}
    (heval : setting.eval stack (.pushInput index) = .ok after) :
    ∃ value, setting.inputs[index.toNat]? = some value ∧ after = value :: stack := by
  rw [eval_pushInput, input] at heval
  cases hinput : setting.inputs[index.toNat]? with
  | none =>
      rw [hinput] at heval
      cases heval
  | some value =>
      rw [hinput] at heval
      cases heval
      exact ⟨value, rfl, rfl⟩

theorem eval_hashChildren_of_lt (stack : List Bytes)
    (hfactor : setting.branchingFactor < 1) :
    setting.eval stack .hashChildren =
      .error (.program (.badBranchingFactor setting.branchingFactor)) := by
  have hzero : setting.branchingFactor.toNat = 0 :=
    Nat.lt_one_iff.1 (UInt32.lt_iff_toNat_lt.1 hfactor)
  rw [eval]
  exact if_pos hzero

/-- An instruction that hashes puts a digest on the values that it keeps. -/
theorem eval_of_arity? {instruction : Instruction} {count : Nat} (stack : List Bytes)
    (harity : instruction.arity? setting.branchingFactor = some count) :
    setting.eval stack instruction =
      (setting.digestTop count stack).map (· :: instruction.kept count stack) := by
  cases instruction with
  | hashChildren =>
      rw [Instruction.arity?] at harity
      by_cases hfactor : setting.branchingFactor < 1
      · rw [if_pos hfactor] at harity
        cases harity
      · have hpos : setting.branchingFactor.toNat ≠ 0 := fun hzero =>
          hfactor (UInt32.lt_iff_toNat_lt.2 (Nat.lt_one_iff.2 hzero))
        rw [if_neg hfactor] at harity
        cases harity
        rw [eval]
        exact if_neg hpos
  | popHash count => cases harity; rfl
  | peekHash count => cases harity; rfl
  | pushInput index => cases harity
  | pushBytes payload => cases harity
  | matchInput index => cases harity
  | unknown opcode operand => cases harity

/-- An instruction that hashes fails only if the stack is too short for it. -/
theorem eval_of_le_length {instruction : Instruction} {count : Nat} {stack : List Bytes}
    (harity : instruction.arity? setting.branchingFactor = some count)
    (hdepth : count ≤ stack.length) :
    setting.eval stack instruction =
      .ok (setting.digest (stack.take count).flatten :: instruction.kept count stack) := by
  rw [eval_of_arity? stack harity, digestTop, if_neg (Nat.not_lt.2 hdepth)]
  rfl

theorem eval_of_length_lt {instruction : Instruction} {count : Nat} {stack : List Bytes}
    (harity : instruction.arity? setting.branchingFactor = some count)
    (hdepth : stack.length < count) :
    setting.eval stack instruction =
      .error (.program (.stackUnderflow count stack.length)) := by
  rw [eval_of_arity? stack harity, digestTop, if_pos hdepth]
  rfl

/-- What an instruction that hashes has done when it did not fail. -/
theorem operands?_of_eval (setting : Setting) {instruction : Instruction} {count : Nat}
    {stack after : List Bytes}
    (harity : instruction.arity? setting.branchingFactor = some count)
    (heval : setting.eval stack instruction = .ok after) :
    instruction.operands? setting.branchingFactor stack = some (stack.take count) ∧
      after = setting.digest (stack.take count).flatten :: instruction.kept count stack := by
  rw [Instruction.operands?, harity]
  by_cases hdepth : stack.length < count
  · rw [eval_of_length_lt harity hdepth] at heval
    cases heval
  · rw [eval_of_le_length harity (Nat.le_of_not_lt hdepth)] at heval
    cases heval
    exact ⟨if_neg hdepth, rfl⟩

theorem eval_of_operands? (setting : Setting) {instruction : Instruction}
    {stack values : List Bytes}
    (hoperands : instruction.operands? setting.branchingFactor stack = some values) :
    setting.eval stack instruction =
      .ok (setting.digest values.flatten :: instruction.kept values.length stack) := by
  obtain ⟨harity, htop⟩ := Instruction.operands?_eq_some hoperands
  have hdepth : values.length ≤ stack.length := by
    have hlength := congrArg List.length htop
    rw [List.length_take] at hlength
    omega
  rw [eval_of_le_length harity hdepth, htop]

theorem eval_matchInput_error {index : UInt64} {cause : Error}
    (hinput : setting.input index = .error cause) (stack : List Bytes) :
    setting.eval stack (.matchInput index) = .error cause := by
  rw [eval, hinput]
  rfl

theorem eval_matchInput_nil {index : UInt64} {expected : Bytes}
    (hinput : setting.input index = .ok expected) :
    setting.eval [] (.matchInput index) = .error (.program (.stackUnderflow 1 0)) := by
  rw [eval, hinput]
  rfl

theorem eval_matchInput_cons {index : UInt64} {expected : Bytes}
    (hinput : setting.input index = .ok expected) (value : Bytes) (rest : List Bytes) :
    setting.eval (value :: rest) (.matchInput index) =
      if value = expected then .ok rest
      else .error (.valueMismatch index value expected) := by
  rw [eval, hinput]
  rfl

/-- All that an instruction that does not fail can have done. -/
theorem eval_eq_ok {stack after : List Bytes} {instruction : Instruction} :
    setting.eval stack instruction = .ok after ↔
      (∃ count, instruction.arity? setting.branchingFactor = some count ∧
        count ≤ stack.length ∧
        after = setting.digest (stack.take count).flatten :: instruction.kept count stack) ∨
      (∃ index value, instruction = .pushInput index ∧
        setting.inputs[index.toNat]? = some value ∧ after = value :: stack) ∨
      (∃ payload, instruction = .pushBytes payload ∧ after = payload :: stack) ∨
      ∃ index value, instruction = .matchInput index ∧
        setting.inputs[index.toNat]? = some value ∧ stack = value :: after := by
  constructor
  · intro heval
    cases harity : instruction.arity? setting.branchingFactor with
    | some count =>
        obtain ⟨hoperands, hafter⟩ := operands?_of_eval setting harity heval
        have hlength := congrArg List.length (Instruction.operands?_eq_some hoperands).2
        have hcount := (Instruction.operands?_eq_some hoperands).1
        rw [harity, Option.some.injEq, List.length_take] at hcount
        exact Or.inl ⟨count, rfl, by omega, hafter⟩
    | none =>
        cases instruction with
        | pushInput index =>
            obtain ⟨value, hvalue, hafter⟩ := pushInput_of_eval setting heval
            exact Or.inr (Or.inl ⟨index, value, rfl, hvalue, hafter⟩)
        | pushBytes payload =>
            cases heval
            exact Or.inr (Or.inr (Or.inl ⟨payload, rfl, rfl⟩))
        | hashChildren =>
            by_cases hfactor : setting.branchingFactor < 1
            · rw [eval_hashChildren_of_lt stack hfactor] at heval
              cases heval
            · rw [Instruction.arity?, if_neg hfactor] at harity
              cases harity
        | popHash count => cases harity
        | peekHash count => cases harity
        | matchInput index =>
            cases hinput : setting.input index with
            | error cause =>
                rw [eval_matchInput_error hinput] at heval
                cases heval
            | ok expected =>
                cases stack with
                | nil =>
                    rw [eval_matchInput_nil hinput] at heval
                    cases heval
                | cons value rest =>
                    rw [eval_matchInput_cons hinput] at heval
                    split at heval
                    · case isTrue hvalue =>
                        cases heval
                        refine Or.inr (Or.inr (Or.inr ⟨index, value, rfl, ?_, rfl⟩))
                        rw [hvalue]
                        exact input_eq_ok.1 hinput
                    · cases heval
        | unknown opcode operand => cases heval
  · rintro (⟨count, harity, hcount, rfl⟩ | ⟨index, value, rfl, hvalue, rfl⟩ |
      ⟨payload, rfl, rfl⟩ | ⟨index, value, rfl, hvalue, rfl⟩)
    · exact eval_of_le_length harity hcount
    · rw [eval_pushInput, input_eq_ok.2 hvalue]
      rfl
    · rfl
    · rw [eval_matchInput_cons (input_eq_ok.2 hvalue), if_pos rfl]

/-- An op is evaluated as the instruction that it stands for. -/
theorem evalOp_eq (stack : List Bytes) (op : Op) :
    setting.evalOp stack op = setting.eval stack op.instruction := by
  rcases op with ⟨code, index, payload⟩
  cases hcode : Opcode.ofCode? code with
  | some opcode =>
      obtain rfl := Opcode.code_of_ofCode? hcode
      cases opcode <;> rfl
  | none =>
      have hinstruction : (⟨code, index, payload⟩ : Op).instruction = .unknown code index := by
        rw [Op.instruction, Op.opcode?, hcode]
      have hne : ∀ opcode : Opcode, code ≠ opcode.code := by
        rintro opcode rfl
        rw [Opcode.ofCode?_code] at hcode
        cases hcode
      rw [hinstruction, evalOp]
      split
      · case h_1 heq => exact absurd heq (hne .pushInput)
      · case h_2 heq => exact absurd heq (hne .pushBytes)
      · case h_3 heq => exact absurd heq (hne .hashChildren)
      · case h_4 heq => exact absurd heq (hne .popHash)
      · case h_5 heq => exact absurd heq (hne .peekHash)
      · case h_6 heq => exact absurd heq (hne .matchInput)
      · rfl

@[simp] theorem evalOps_nil (stack : List Bytes) : setting.evalOps stack [] = .ok stack := rfl

theorem evalOps_cons_of_ok {stack after : List Bytes} {op : Op}
    (heval : setting.eval stack op.instruction = .ok after) (rest : List Op) :
    setting.evalOps stack (op :: rest) = setting.evalOps after rest := by
  rw [evalOps, List.foldlM_cons, evalOp_eq, heval]
  rfl

theorem evalOps_cons_of_error {stack : List Bytes} {op : Op} {cause : Error}
    (heval : setting.eval stack op.instruction = .error cause) (rest : List Op) :
    setting.evalOps stack (op :: rest) = .error cause := by
  rw [evalOps, List.foldlM_cons, evalOp_eq, heval]
  rfl

theorem evalOps_append (stack : List Bytes) (first second : List Op) :
    setting.evalOps stack (first ++ second) =
      (setting.evalOps stack first).bind fun after => setting.evalOps after second := by
  rw [evalOps, List.foldlM_append]
  rfl

theorem evalOps_append_of_ok {stack after : List Bytes} {first : List Op}
    (heval : setting.evalOps stack first = .ok after) (second : List Op) :
    setting.evalOps stack (first ++ second) = setting.evalOps after second := by
  rw [evalOps_append, heval]
  rfl

theorem evalOps_cons_eq_ok {stack after : List Bytes} {op : Op} {rest : List Op} :
    setting.evalOps stack (op :: rest) = .ok after ↔
      ∃ next, setting.eval stack op.instruction = .ok next ∧
        setting.evalOps next rest = .ok after := by
  cases heval : setting.eval stack op.instruction with
  | error cause =>
      rw [evalOps_cons_of_error heval]
      simp
  | ok next =>
      rw [evalOps_cons_of_ok heval]
      simp

end Setting

theorem HashFunction.fixedDigest_eq {function : HashFunction}
    (hpolicy : function.policy = .fixed) (declared : UInt32) :
    function.fixedDigest declared = (function.resolveSize declared).map function.digest := by
  rw [fixedDigest, resolveSize, hpolicy]
  by_cases hdeclared : declared = 0
  · simp only [if_pos hdeclared]
    rfl
  · simp only [if_neg hdeclared]
    rfl

theorem HashFunction.declaredDigest_eq {function : HashFunction}
    (hpolicy : function.policy = .declared) (declared : UInt32) :
    function.declaredDigest declared = (function.resolveSize declared).map function.digest := by
  rw [declaredDigest, resolveSize, hpolicy]
  by_cases hdeclared : declared = 0
  · simp only [if_pos hdeclared]
    rfl
  · simp only [if_neg hdeclared]
    rfl

/-- The digest is that of the selected function in the size that its policy gives. -/
theorem Metadata.digest_eq (metadata : Metadata) :
    metadata.digest =
      metadata.function.bind fun function =>
        (function.resolveSize metadata.outputLength).map function.digest := by
  rcases metadata with ⟨id, length, inputCount, branchingFactor⟩
  rw [Metadata.function]
  cases hid : HashFunction.ofId? id with
  | some function =>
      obtain rfl := HashFunction.id_of_ofId? hid
      cases function with
      | sha256 | blake3 => exact HashFunction.fixedDigest_eq rfl length
      | shake128 | shake256 | blake3Xof => exact HashFunction.declaredDigest_eq rfl length
  | none =>
      have hne : ∀ function : HashFunction, id ≠ function.id := by
        rintro function rfl
        rw [HashFunction.ofId?_id] at hid
        cases hid
      rw [Metadata.digest]
      split
      · case h_1 heq => exact absurd heq (hne .sha256)
      · case h_2 heq => exact absurd heq (hne .shake128)
      · case h_3 heq => exact absurd heq (hne .shake256)
      · case h_4 heq => exact absurd heq (hne .blake3)
      · case h_5 heq => exact absurd heq (hne .blake3Xof)
      · rfl

/-- The setting of a run whose checks all pass. -/
theorem Program.setting_eq_ok {program : Program} {inputs : List Bytes}
    {function : HashFunction} {size : Nat}
    (hcount : program.metadata.inputCount.toNat = inputs.length)
    (hfunction : program.metadata.function = .ok function)
    (hsize : function.resolveSize program.metadata.outputLength = .ok size) :
    program.setting inputs =
      .ok ⟨function.digest size, program.metadata.branchingFactor,
        program.metadata.inputCount, inputs⟩ := by
  simp [setting, Metadata.digest_eq, hcount, hfunction, hsize, Except.map, bind, Except.bind,
    pure, Except.pure]

end MerkleStack
