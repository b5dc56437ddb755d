/-
What failures leave.  An op that is refused leaves a machine as if the op had not been
there; a comparison that finds a difference takes the compared value away and nothing else.
So when a machine is driven to the end through all failures, the refused ops could be struck
out of its program: the others return what they returned, and the stack is the same.
-/
import MerkleStack.Proofs.Outline
import MerkleStack.Proofs.Stepping

namespace MerkleStack

/-- Whether a cause is found before an op has done anything. -/
def Error.refusal : Error → Bool
  | .program (.unknownOpcode _) => true
  | .program (.inputOutOfBounds _ _) => true
  | .program (.stackUnderflow _ _) => true
  | .program (.badBranchingFactor _) => true
  | _ => false

/-- An op and what the step that carried it out returned. -/
structure Outcome where
  op : Op
  result : Except Error Unit

def Outcome.refused (outcome : Outcome) : Bool :=
  match outcome.result with
  | .ok () => false
  | .error cause => cause.refusal

def Outcome.survivors (outcomes : List Outcome) : List Outcome :=
  outcomes.filter fun outcome => !outcome.refused

namespace Outcome

variable {outcome : Outcome}

theorem survivors_cons_of_refused (hrefused : outcome.refused = true) (rest : List Outcome) :
    survivors (outcome :: rest) = survivors rest := by
  simp [survivors, hrefused]

theorem survivors_cons_of_not_refused (hrefused : outcome.refused = false)
    (rest : List Outcome) : survivors (outcome :: rest) = outcome :: survivors rest := by
  simp [survivors, hrefused]

end Outcome

namespace Setting

variable {setting : Setting} {cause : Error}

theorem leftover_of_refusal (hrefusal : cause.refusal = true) (stack : List Bytes) :
    leftover stack cause = stack := by
  cases cause with
  | valueMismatch index value expected => cases hrefusal
  | _ => rfl

/-- An instruction that fails has hashed nothing. -/
theorem operands?_of_error {stack : List Bytes} {instruction : Instruction}
    (heval : setting.eval stack instruction = .error cause) :
    instruction.operands? setting.branchingFactor stack = none := by
  cases hoperands : instruction.operands? setting.branchingFactor stack with
  | none => rfl
  | some values =>
      rw [eval_of_operands? setting hoperands] at heval
      cases heval

/-- A difference is found by a comparison of the top value with an input, and by nothing
else. -/
theorem eval_eq_mismatch_iff (hsupplied : setting.Supplied) {stack : List Bytes}
    {instruction : Instruction} {index : UInt64} {value expected : Bytes} :
    setting.eval stack instruction = .error (.valueMismatch index value expected) ↔
      instruction = .matchInput index ∧ setting.inputs[index.toNat]? = some expected ∧
        stack.head? = some value ∧ value ≠ expected := by
  constructor
  · intro heval
    rcases eval_cases hsupplied stack instruction with
      ⟨after, hok, _⟩ | ⟨other, hother, _⟩ | ⟨_, _, _, _, number, rfl, hnumber, hdepth⟩
    · rw [hok] at heval
      cases heval
    · rw [hother] at heval
      cases heval
    · obtain ⟨top, rest, rfl⟩ := List.exists_cons_of_length_pos hdepth
      have hinput := input_of_lt hsupplied hnumber
      rw [eval_matchInput_cons hinput] at heval
      split at heval
      · cases heval
      · case isFalse hvalue =>
          cases heval
          exact ⟨rfl, input_eq_ok.1 hinput, rfl, hvalue⟩
  · rintro ⟨rfl, hinput, htop, hvalue⟩
    obtain ⟨rest, rfl⟩ := List.head?_eq_some_iff.1 htop
    rw [eval_matchInput_cons (input_eq_ok.2 hinput), if_neg hvalue]

/-- Outcomes of ops in turn, also after those of them that fail. -/
def outcomes (setting : Setting) : List Bytes → List Op → List Outcome
  | _, [] => []
  | stack, op :: rest =>
      ⟨op, (setting.eval stack op.instruction).map fun _ => ()⟩ ::
        setting.outcomes (setting.settle stack op.instruction) rest

/-- An op that is refused leaves the stack as it was. -/
theorem settle_of_refused {stack : List Bytes} {op : Op}
    (hrefused : (Outcome.mk op ((setting.eval stack op.instruction).map fun _ => ())).refused =
      true) : setting.settle stack op.instruction = stack := by
  cases heval : setting.eval stack op.instruction with
  | ok after =>
      rw [heval] at hrefused
      cases hrefused
  | error cause =>
      rw [heval] at hrefused
      rw [settle_of_error heval]
      exact leftover_of_refusal hrefused stack

/-- Without the refused ops the others have the outcomes that they had, and leave what all
of them left. -/
theorem outcomes_survivors (stack : List Bytes) (ops : List Op) :
    let kept := Outcome.survivors (setting.outcomes stack ops)
    setting.outcomes stack (kept.map Outcome.op) = kept ∧
      setting.settleOps stack (kept.map Outcome.op) = setting.settleOps stack ops := by
  intro kept
  induction ops generalizing stack with
  | nil => exact ⟨rfl, rfl⟩
  | cons op rest ih =>
      obtain ⟨houtcomes, hsettled⟩ := ih (setting.settle stack op.instruction)
      cases hrefused : (Outcome.mk op
          ((setting.eval stack op.instruction).map fun _ => ())).refused with
      | true =>
          have hkept : kept = Outcome.survivors
              (setting.outcomes (setting.settle stack op.instruction) rest) :=
            Outcome.survivors_cons_of_refused hrefused _
          have hstack := settle_of_refused hrefused
          rw [← hkept, hstack] at houtcomes hsettled
          refine ⟨houtcomes, hsettled.trans ?_⟩
          rw [settleOps, settleOps, List.foldl_cons, hstack]
      | false =>
          have hkept : kept = _ :: Outcome.survivors
              (setting.outcomes (setting.settle stack op.instruction) rest) :=
            Outcome.survivors_cons_of_not_refused hrefused _
          rw [hkept]
          refine ⟨?_, hsettled⟩
          rw [List.map_cons, outcomes, houtcomes]

end Setting

namespace Machine

variable {machine : Machine} {cause : Error}

/-- An instruction that fails changes nothing but the stack. -/
theorem settled_of_error {instruction : Instruction}
    (heval : machine.setting.eval machine.stack instruction = .error cause) :
    machine.settled instruction =
      (.error cause, { machine with stack := Setting.leftover machine.stack cause }) := by
  have hoperands : machine.operands? instruction = none := Setting.operands?_of_error heval
  rw [settled, Setting.settle_of_error heval, heval, hoperands]
  rfl

/-- Outcomes of as many ops as the list has, failures included. -/
def outcomesThrough : List Op → Machine → List Outcome
  | [], _ => []
  | op :: rest, machine => ⟨op, machine.step.1⟩ :: outcomesThrough rest machine.step.2

/-- Outcomes of all pending ops when the machine is driven to the end. -/
def outcomes (machine : Machine) : List Outcome :=
  outcomesThrough machine.pending machine

namespace Follows

variable {setting : Setting} {stack : List Bytes} {op : Op} {ops rest : List Op}

/-- A step that fails moves the machine on and changes nothing but the stack. -/
theorem step_of_error (hfollows : machine.Follows setting (op :: rest) stack)
    (heval : setting.eval stack op.instruction = .error cause) :
    machine.step =
      (.error cause, { machine.past rest with stack := Setting.leftover stack cause }) := by
  have hpast : (machine.past rest).setting.eval (machine.past rest).stack op.instruction =
      .error cause := by
    rw [← heval, ← hfollows.setting_eq, ← hfollows.stack_eq]
    rfl
  rw [hfollows.step_eq, settled_of_error hpast, ← hfollows.stack_eq]
  rfl

theorem outcomesThrough_eq (hfollows : machine.Follows setting ops stack) :
    outcomesThrough ops machine = setting.outcomes stack ops := by
  induction ops generalizing machine stack with
  | nil => rfl
  | cons op rest ih =>
      rw [outcomesThrough, Setting.outcomes, ih hfollows.step, hfollows.step_result]

end Follows

namespace Progress

variable {program : Program} {setting : Setting}

/-- A step that fails for another cause than the end of the program carried out an op. -/
theorem lt_of_step_error (hprogress : machine.Progress program setting)
    (hstep : machine.step.1 = .error cause) (hcause : cause ≠ .program .pastEnd) :
    machine.ip < program.ops.length := by
  apply Nat.lt_of_not_le
  intro hend
  rw [hprogress.step_of_le hend] at hstep
  cases hstep
  exact hcause rfl

/-- What a failing step leaves. -/
theorem step_of_error (hprogress : machine.Progress program setting)
    (hstep : machine.step.1 = .error cause) (hcause : cause ≠ .program .pastEnd) :
    machine.step.2 =
      { machine.past (program.ops.drop (machine.ip + 1)) with
        stack := Setting.leftover machine.stack cause } := by
  have hfollows := hprogress.follows_of_lt (hprogress.lt_of_step_error hstep hcause)
  rw [hfollows.step_of_error (hfollows.eval_of_step_error hstep)]

theorem step_of_refusal (hprogress : machine.Progress program setting)
    (hstep : machine.step.1 = .error cause) (hrefusal : cause.refusal = true) :
    machine.step.2 = machine.past (program.ops.drop (machine.ip + 1)) := by
  have hcause : cause ≠ .program .pastEnd := by
    rintro rfl
    cases hrefusal
  rw [hprogress.step_of_error hstep hcause, Setting.leftover_of_refusal hrefusal]
  rfl

/-- An input that is not declared is found missing before the stack is looked at. -/
theorem step_of_matchInput (hprogress : machine.Progress program setting) {index : UInt64}
    (hop : program.ops[machine.ip]?.map Op.instruction = some (.matchInput index))
    (hindex : setting.inputCount.toNat ≤ index.toNat) (stack : List Bytes) :
    ({ machine with stack } : Machine).step =
      (.error (.program (.inputOutOfBounds index setting.inputCount)),
        { machine.past (program.ops.drop (machine.ip + 1)) with stack }) := by
  obtain ⟨op, hget, hinstruction⟩ := Option.map_eq_some_iff.1 hop
  obtain ⟨hlt, rfl⟩ := List.getElem?_eq_some_iff.1 hget
  have hfollows := hprogress.follows_of_lt hlt
  have hrestacked : ({ machine with stack } : Machine).Follows setting
      (program.ops[machine.ip] :: program.ops.drop (machine.ip + 1)) stack :=
    ⟨hfollows.supplied, hfollows.setting_eq, hfollows.pending_eq, rfl⟩
  have hinput := Setting.input_of_not_lt hprogress.supplied (Nat.not_lt.2 hindex)
  have heval := Setting.eval_matchInput_error hinput stack
  rw [← hinstruction] at heval
  exact hrestacked.step_of_error heval

/-- When a step finds a difference, and which one. -/
theorem step_eq_mismatch_iff (hprogress : machine.Progress program setting) {index : UInt64}
    {value expected : Bytes} :
    machine.step.1 = .error (.valueMismatch index value expected) ↔
      program.ops[machine.ip]?.map Op.instruction = some (.matchInput index) ∧
        setting.inputs[index.toNat]? = some expected ∧
        machine.stack.head? = some value ∧ value ≠ expected := by
  constructor
  · intro hstep
    have hlt := hprogress.lt_of_step_error hstep Error.noConfusion
    have heval := (hprogress.follows_of_lt hlt).eval_of_step_error hstep
    rw [List.getElem?_eq_getElem hlt, Option.map_some, Option.some.injEq]
    exact (Setting.eval_eq_mismatch_iff hprogress.supplied).1 heval
  · rintro ⟨hop, hdiffers⟩
    obtain ⟨op, hget, hinstruction⟩ := Option.map_eq_some_iff.1 hop
    obtain ⟨hlt, rfl⟩ := List.getElem?_eq_some_iff.1 hget
    rw [hprogress.step_result_of_lt hlt,
      (Setting.eval_eq_mismatch_iff hprogress.supplied).2 ⟨hinstruction, hdiffers⟩]
    rfl

/-- The stack when a machine was driven to the end. -/
theorem stack_steps_length (hprogress : machine.Progress program setting)
    (hip : machine.ip = 0) :
    (machine.steps program.ops.length).stack = setting.settleOps [] program.ops := by
  rw [(hprogress.steps program.ops.length).stack_eq, hprogress.ip_steps, hip, Nat.zero_add,
    Nat.min_self, List.take_length]

end Progress

/-- Ops that are refused leave no trace.  Wherever calls have led a machine, a refused op
changes nothing but the position; an input that is not declared is refused whatever is on
the stack; and a difference is reported exactly when a comparison meets one, with the
compared value gone.  So a machine that is driven to the end has the stack that the program
without the refused ops leaves, where the others return what they returned. -/
theorem refusals_traceless {program : Program} {inputs : List Bytes} {machine : Machine}
    (hstart : start program inputs = .ok machine) :
    (∀ calls,
      let current := machine.afterCalls calls
      let next := current.past (program.ops.drop (current.ip + 1))
      let instruction? := program.ops[current.ip]?.map Op.instruction
      (∀ cause, current.step.1 = .error cause → cause.refusal = true →
        current.step.2 = next) ∧
      (∀ index stack, instruction? = some (.matchInput index) →
        program.metadata.inputCount.toNat ≤ index.toNat →
          ({ current with stack } : Machine).step =
            (.error (.program (.inputOutOfBounds index program.metadata.inputCount)),
              { next with stack })) ∧
      ∀ index value expected,
        (current.step.1 = .error (.valueMismatch index value expected) ↔
          instruction? = some (.matchInput index) ∧
            index.toNat < program.metadata.inputCount.toNat ∧
            inputs[index.toNat]? = some expected ∧
            current.stack.head? = some value ∧ value ≠ expected) ∧
        (current.step.1 = .error (.valueMismatch index value expected) →
          current.step.2 = { next with stack := current.stack.tail })) ∧
    let kept := Outcome.survivors machine.outcomes
    ∃ other, start ⟨program.metadata, kept.map Outcome.op⟩ inputs = .ok other ∧
      (other.steps kept.length).stack = (machine.steps program.ops.length).stack ∧
      other.outcomes = kept := by
  obtain ⟨hip, _, _, hprogress⟩ := progress_of_start hstart
  obtain ⟨function, size, hcount, hfunction, hsize, rfl⟩ := start_eq_ok.1 hstart
  constructor
  · intro calls current next instruction?
    have hcurrent := hprogress.afterCalls calls
    refine ⟨?_, ?_, ?_⟩
    · intro cause hstep hrefusal
      exact hcurrent.step_of_refusal hstep hrefusal
    · intro index stack hop hindex
      exact hcurrent.step_of_matchInput hop hindex stack
    · intro index value expected
      constructor
      · refine hcurrent.step_eq_mismatch_iff.trans ?_
        constructor
        · rintro ⟨hop, hinput, hdiffers⟩
          have hlt : index.toNat < inputs.length := (List.getElem?_eq_some_iff.1 hinput).1
          exact ⟨hop, hcount ▸ hlt, hinput, hdiffers⟩
        · rintro ⟨hop, _, hinput, hdiffers⟩
          exact ⟨hop, hinput, hdiffers⟩
      · intro hstep
        exact hcurrent.step_of_error hstep Error.noConfusion
  · intro kept
    let thinned : Program := ⟨program.metadata, kept.map Outcome.op⟩
    have hother : start thinned inputs = .ok (initial thinned inputs function size) :=
      start_eq_ok.2 ⟨function, size, hcount, hfunction, hsize, rfl⟩
    obtain ⟨hip', _, _, hprogress'⟩ := progress_of_start hother
    have hkept : kept = Outcome.survivors
        ((initial program inputs function size).setting.outcomes [] program.ops) :=
      congrArg _ (initial_follows hcount function size).outcomesThrough_eq
    obtain ⟨houtcomes, hsettled⟩ :=
      (initial program inputs function size).setting.outcomes_survivors [] program.ops
    rw [← hkept] at houtcomes hsettled
    refine ⟨_, hother, ?_, ?_⟩
    · have hstack := hprogress'.stack_steps_length hip'
      rw [List.length_map] at hstack
      rw [hstack, hprogress.stack_steps_length hip]
      exact hsettled
    · have hfollows : (initial thinned inputs function size).Follows _ thinned.ops [] :=
        hprogress'.follows
      exact hfollows.outcomesThrough_eq.trans houtcomes

/-- One op for each cause of a refusal, and a comparison that finds a difference, among ops
that are carried out. -/
def faltering : Program :=
  ⟨Metadata.ofFunction .sha256 1 0,
    [⟨9, 0, []⟩, Op.pushInput 0, Op.pushInput 1, Op.hashChildren, Op.popHash 2,
      Op.pushBytes [8], Op.matchInput 2, Op.matchInput 0, Op.popHash 1]⟩

theorem refusals_traceless_faltering :
    ∃ machine other, start faltering [[7]] = .ok machine ∧
      (machine.afterCalls [.run, .run]).step =
        (.error (.program (.badBranchingFactor 0)),
          (machine.afterCalls [.run, .run]).past (faltering.ops.drop 4)) ∧
      ({ machine.afterCalls [.run, .run, .run, .run, .step] with stack := [] } : Machine).step.1 =
        .error (.program (.inputOutOfBounds 2 1)) ∧
      (machine.steps 7).step.1 = .error (.valueMismatch 0 [8] [7]) ∧
      (machine.steps 7).step.2.stack = [[7]] ∧
      start ⟨faltering.metadata,
          [Op.pushInput 0, Op.pushBytes [8], Op.matchInput 0, Op.popHash 1]⟩ [[7]] =
        .ok other ∧
      (other.steps 4).stack = (machine.steps 9).stack ∧
      other.outcomes.map Outcome.result =
        [.ok (), .ok (), .error (.valueMismatch 0 [8] [7]), .ok ()] := by
  have hstart : start faltering [[7]] = .ok (initial faltering [[7]] .sha256 32) := rfl
  obtain ⟨hcalls, other, hother, hstack, houtcomes⟩ := refusals_traceless hstart
  have hrefused := (hcalls [.run, .run]).1 _ rfl rfl
  have hunchecked := (hcalls [.run, .run, .run, .run, .step]).2.1 2 [] rfl (by decide)
  have hmismatch := (hcalls (List.replicate 7 .step)).2.2 0 [8] [7]
  have hdiffers := hmismatch.1.2 ⟨rfl, by decide, rfl, rfl, by decide⟩
  refine ⟨_, other, hstart, ?_, congrArg Prod.fst hunchecked, hdiffers, ?_, hother, hstack, ?_⟩
  · exact Prod.ext rfl hrefused
  · exact congrArg Machine.stack (hmismatch.2 hdiffers)
  · rw [houtcomes]
    rfl

end Machine

end MerkleStack
