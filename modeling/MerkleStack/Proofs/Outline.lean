/-
Outlines of runs.  How many values an op leaves, and for which cause it fails, can be
told from its opcode, its operand and the number of values before it.  Values matter for
comparisons only, and a comparison removes its value whether or not it holds.  So two
runs of programs that differ in payloads, hash or inputs go the same way.
-/
import MerkleStack.Proofs.Calls

namespace MerkleStack

namespace Instruction

/-- The number of values that an instruction leaves of `depth` values, or the cause for
which it fails, if no value differs from the input that it is compared with. -/
def outline (inputCount branchingFactor : UInt32) (depth : Nat) :
    Instruction → Except ProgramError Nat
  | pushInput index =>
      if index.toNat < inputCount.toNat then .ok (depth + 1)
      else .error (.inputOutOfBounds index inputCount)
  | pushBytes _ => .ok (depth + 1)
  | hashChildren =>
      if branchingFactor < 1 then .error (.badBranchingFactor branchingFactor)
      else if depth < branchingFactor.toNat then
        .error (.stackUnderflow branchingFactor.toNat depth)
      else .ok (depth - branchingFactor.toNat + 1)
  | popHash count =>
      if depth < count.toNat then .error (.stackUnderflow count.toNat depth)
      else .ok (depth - count.toNat + 1)
  | peekHash count =>
      if depth < count.toNat then .error (.stackUnderflow count.toNat depth)
      else .ok (depth + 1)
  | matchInput index =>
      if index.toNat < inputCount.toNat then
        if depth = 0 then .error (.stackUnderflow 1 0) else .ok (depth - 1)
      else .error (.inputOutOfBounds index inputCount)
  | unknown opcode _ => .error (.unknownOpcode opcode)

/-- Whether an instruction compares a value on the stack with an input. -/
def Compares (inputCount : UInt32) (depth : Nat) (instruction : Instruction) : Prop :=
  ∃ index, instruction = matchInput index ∧ index.toNat < inputCount.toNat ∧ 0 < depth

/-- The number of values after an instruction, also after one that fails. -/
def settledDepth (inputCount branchingFactor : UInt32) (depth : Nat)
    (instruction : Instruction) : Nat :=
  match instruction.outline inputCount branchingFactor depth with
  | .ok after => after
  | .error _ => depth

variable {inputCount branchingFactor : UInt32}

theorem outline_of_arity? {instruction : Instruction} {count : Nat}
    (harity : instruction.arity? branchingFactor = some count) (stack : List Bytes) :
    instruction.outline inputCount branchingFactor stack.length =
      if stack.length < count then .error (.stackUnderflow count stack.length)
      else .ok ((instruction.kept count stack).length + 1) := by
  cases instruction with
  | hashChildren =>
      by_cases hfactor : branchingFactor < 1
      · simp [arity?, hfactor] at harity
      · simp only [arity?, hfactor, ↓reduceIte, Option.some.injEq] at harity
        simp [outline, hfactor, kept, harity]
  | popHash count =>
      cases harity
      simp [outline, kept]
  | peekHash count =>
      cases harity
      simp [outline, kept]
  | pushInput index => cases harity
  | pushBytes payload => cases harity
  | matchInput index => cases harity
  | unknown opcode operand => cases harity

theorem Compares.outline_eq {instruction : Instruction} {depth : Nat}
    (hcompares : instruction.Compares inputCount depth) :
    instruction.outline inputCount branchingFactor depth = .ok (depth - 1) := by
  obtain ⟨index, rfl, hindex, hdepth⟩ := hcompares
  simp [outline, hindex, Nat.ne_of_gt hdepth]

end Instruction

def outlineOps (inputCount branchingFactor : UInt32) (depth : Nat) (ops : List Op) :
    Except ProgramError Nat :=
  ops.foldlM (fun depth op => op.instruction.outline inputCount branchingFactor depth) depth

/-- The number of values after some ops, also after those of them that fail. -/
def settledDepthOps (inputCount branchingFactor : UInt32) (depth : Nat) (ops : List Op) :
    Nat :=
  ops.foldl (fun depth op => op.instruction.settledDepth inputCount branchingFactor depth)
    depth

namespace Setting

variable {setting : Setting}

/-- An instruction does what its outline says, or it compares and finds a difference. -/
theorem eval_cases (hsupplied : setting.Supplied) (stack : List Bytes)
    (instruction : Instruction) :
    (∃ after, setting.eval stack instruction = .ok after ∧
      instruction.outline setting.inputCount setting.branchingFactor stack.length =
        .ok after.length) ∨
    (∃ cause, setting.eval stack instruction = .error (.program cause) ∧
      instruction.outline setting.inputCount setting.branchingFactor stack.length =
        .error cause) ∨
    ∃ index value expected,
      setting.eval stack instruction = .error (.valueMismatch index value expected) ∧
        instruction.Compares setting.inputCount stack.length := by
  cases harity : instruction.arity? setting.branchingFactor with
  | some count =>
      rw [Instruction.outline_of_arity? harity]
      by_cases hdepth : stack.length < count
      · exact Or.inr (Or.inl ⟨_, eval_of_length_lt harity hdepth, if_pos hdepth⟩)
      · exact Or.inl ⟨_, eval_of_le_length harity (Nat.le_of_not_lt hdepth), if_neg hdepth⟩
  | none =>
      cases instruction with
      | pushInput index =>
          rw [eval_pushInput, Instruction.outline]
          by_cases hindex : index.toNat < setting.inputCount.toNat
          · rw [input_of_lt hsupplied hindex]
            exact Or.inl ⟨_, rfl, if_pos hindex⟩
          · rw [input_of_not_lt hsupplied hindex]
            exact Or.inr (Or.inl ⟨_, rfl, if_neg hindex⟩)
      | pushBytes payload => exact Or.inl ⟨_, rfl, rfl⟩
      | hashChildren =>
          by_cases hfactor : setting.branchingFactor < 1
          · exact Or.inr (Or.inl ⟨_, eval_hashChildren_of_lt stack hfactor, if_pos hfactor⟩)
          · simp [Instruction.arity?, hfactor] at harity
      | popHash count => cases harity
      | peekHash count => cases harity
      | matchInput index =>
          rw [Instruction.outline]
          by_cases hindex : index.toNat < setting.inputCount.toNat
          · have hinput := input_of_lt hsupplied hindex
            rw [if_pos hindex]
            cases stack with
            | nil => exact Or.inr (Or.inl ⟨_, eval_matchInput_nil hinput, rfl⟩)
            | cons value rest =>
                rw [eval_matchInput_cons hinput]
                by_cases hvalue : value = setting.inputs.getD index.toNat []
                · exact Or.inl ⟨rest, if_pos hvalue, rfl⟩
                · exact Or.inr (Or.inr ⟨index, value, _, if_neg hvalue, index, rfl, hindex,
                    Nat.succ_pos rest.length⟩)
          · have hinput := input_of_not_lt hsupplied hindex
            exact Or.inr (Or.inl ⟨_, eval_matchInput_error hinput stack, if_neg hindex⟩)
      | unknown opcode operand => exact Or.inr (Or.inl ⟨_, rfl, rfl⟩)

theorem eval_of_not_compares (hsupplied : setting.Supplied) {stack : List Bytes}
    {instruction : Instruction}
    (hcompares : ¬ instruction.Compares setting.inputCount stack.length) :
    (setting.eval stack instruction).map List.length =
      (instruction.outline setting.inputCount setting.branchingFactor stack.length).mapError
        Error.program := by
  rcases eval_cases hsupplied stack instruction with
    ⟨after, heval, houtline⟩ | ⟨cause, heval, houtline⟩ | ⟨_, _, _, _, hdoes⟩
  · rw [heval, houtline]
    rfl
  · rw [heval, houtline]
    rfl
  · exact absurd hdoes hcompares

theorem eval_of_compares (hsupplied : setting.Supplied) {stack : List Bytes}
    {instruction : Instruction}
    (hcompares : instruction.Compares setting.inputCount stack.length) :
    (∃ after, setting.eval stack instruction = .ok after) ∨
      ∃ index value expected,
        setting.eval stack instruction = .error (.valueMismatch index value expected) := by
  rcases eval_cases hsupplied stack instruction with
    ⟨after, heval, _⟩ | ⟨cause, _, houtline⟩ | ⟨index, value, expected, heval, _⟩
  · exact Or.inl ⟨after, heval⟩
  · rw [hcompares.outline_eq] at houtline
    cases houtline
  · exact Or.inr ⟨index, value, expected, heval⟩

theorem length_settle (hsupplied : setting.Supplied) (stack : List Bytes)
    (instruction : Instruction) :
    (setting.settle stack instruction).length =
      instruction.settledDepth setting.inputCount setting.branchingFactor stack.length := by
  rw [Instruction.settledDepth]
  rcases eval_cases hsupplied stack instruction with
    ⟨after, heval, houtline⟩ | ⟨cause, heval, houtline⟩ |
    ⟨index, value, expected, heval, hcompares⟩
  · rw [settle_of_ok heval, houtline]
  · rw [settle_of_error heval, houtline]
    rfl
  · rw [settle_of_error heval, hcompares.outline_eq]
    exact List.length_tail

/-- Some ops do what their outlines say, or one of them compares and finds a
difference. -/
theorem evalOps_cases (hsupplied : setting.Supplied) (stack : List Bytes) (ops : List Op) :
    (setting.evalOps stack ops).map List.length =
        (outlineOps setting.inputCount setting.branchingFactor stack.length ops).mapError
          Error.program ∨
      ∃ index value expected,
        setting.evalOps stack ops = .error (.valueMismatch index value expected) := by
  induction ops generalizing stack with
  | nil => exact Or.inl rfl
  | cons op rest ih =>
      rcases eval_cases hsupplied stack op.instruction with
        ⟨after, heval, houtline⟩ | ⟨cause, heval, houtline⟩ |
        ⟨index, value, expected, heval, _⟩
      · rw [evalOps_cons_of_ok heval, outlineOps, List.foldlM_cons, houtline]
        exact ih after
      · rw [evalOps_cons_of_error heval, outlineOps, List.foldlM_cons, houtline]
        exact Or.inl rfl
      · exact Or.inr ⟨index, value, expected, evalOps_cons_of_error heval rest⟩

theorem length_settleOps (hsupplied : setting.Supplied) (stack : List Bytes)
    (ops : List Op) :
    (setting.settleOps stack ops).length =
      settledDepthOps setting.inputCount setting.branchingFactor stack.length ops := by
  induction ops generalizing stack with
  | nil => rfl
  | cons op rest ih =>
      rw [settleOps, settledDepthOps, List.foldl_cons, List.foldl_cons,
        ← length_settle hsupplied]
      exact ih _

end Setting

/-- Whether ops differ in their payloads at most. -/
def Op.Alike (first second : Op) : Prop :=
  first.opcode = second.opcode ∧ first.index = second.index

namespace Op.Alike

variable {first second : Op} {inputCount branchingFactor : UInt32}

theorem outline_eq (halike : first.Alike second) (depth : Nat) :
    first.instruction.outline inputCount branchingFactor depth =
      second.instruction.outline inputCount branchingFactor depth := by
  obtain ⟨hopcode, hindex⟩ := halike
  rw [Op.instruction, Op.instruction, Op.opcode?, Op.opcode?, hopcode, hindex]
  split <;> rfl

theorem compares_iff (halike : first.Alike second) (depth : Nat) :
    first.instruction.Compares inputCount depth ↔
      second.instruction.Compares inputCount depth := by
  obtain ⟨hopcode, hindex⟩ := halike
  simp [Instruction.Compares, Op.instruction_eq_matchInput_iff, Op.opcode?, hopcode, hindex]

theorem outlineOps_eq {ops others : List Op} (halike : List.Forall₂ Op.Alike ops others)
    (depth : Nat) :
    outlineOps inputCount branchingFactor depth ops =
      outlineOps inputCount branchingFactor depth others := by
  induction halike generalizing depth with
  | nil => rfl
  | cons hop _ ih =>
      rw [outlineOps, outlineOps, List.foldlM_cons, List.foldlM_cons, hop.outline_eq]
      exact congrArg _ (funext ih)

theorem settledDepthOps_eq {ops others : List Op}
    (halike : List.Forall₂ Op.Alike ops others) (depth : Nat) :
    settledDepthOps inputCount branchingFactor depth ops =
      settledDepthOps inputCount branchingFactor depth others := by
  induction halike generalizing depth with
  | nil => rfl
  | cons hop _ ih =>
      rw [settledDepthOps, settledDepthOps, List.foldl_cons, List.foldl_cons,
        Instruction.settledDepth, hop.outline_eq]
      exact ih _

end Op.Alike

namespace Machine

/-- Whether the next op compares a value on the stack with an input. -/
def Compares (machine : Machine) : Prop :=
  ∃ op ∈ machine.pending.head?,
    op.instruction.Compares machine.metadata.inputCount machine.depth

/-- Whether a result is one of a comparison, which holds or finds a difference. -/
def Compared (result : Except Error Unit) : Prop :=
  result = .ok () ∨
    ∃ index value expected, result = .error (.valueMismatch index value expected)

namespace Progress

variable {machine : Machine} {program : Program} {setting : Setting}

theorem depth_eq (hprogress : machine.Progress program setting) :
    machine.depth =
      settledDepthOps setting.inputCount setting.branchingFactor 0
        (program.ops.take machine.ip) := by
  rw [depth, hprogress.stack_eq]
  exact Setting.length_settleOps hprogress.supplied [] _

theorem inputCount_eq (hprogress : machine.Progress program setting) :
    machine.metadata.inputCount = setting.inputCount :=
  congrArg Setting.inputCount hprogress.setting_eq

theorem compares_iff_of_lt (hprogress : machine.Progress program setting)
    (hlt : machine.ip < program.ops.length) :
    machine.Compares ↔
      program.ops[machine.ip].instruction.Compares setting.inputCount machine.depth := by
  rw [Compares, hprogress.pending_eq, hprogress.inputCount_eq]
  simp [List.getElem?_eq_getElem hlt]

theorem not_compares_of_le (hprogress : machine.Progress program setting)
    (hend : program.ops.length ≤ machine.ip) : ¬ machine.Compares := by
  rw [Compares, hprogress.pending_eq, List.drop_of_length_le hend]
  simp

theorem step_result_of_lt (hprogress : machine.Progress program setting)
    (hlt : machine.ip < program.ops.length) :
    machine.step.1 =
      (setting.eval machine.stack program.ops[machine.ip].instruction).map fun _ => () :=
  (hprogress.follows_of_lt hlt).step_result

/-- A step that compares nothing gives the result of its outline. -/
theorem step_of_not_compares (hprogress : machine.Progress program setting)
    (hlt : machine.ip < program.ops.length) (hcompares : ¬ machine.Compares) :
    machine.step.1 =
      ((program.ops[machine.ip].instruction.outline setting.inputCount
        setting.branchingFactor machine.depth).mapError Error.program).map fun _ => () := by
  rw [hprogress.compares_iff_of_lt hlt] at hcompares
  have heval := Setting.eval_of_not_compares hprogress.supplied hcompares
  rw [hprogress.step_result_of_lt hlt, depth, ← heval]
  cases setting.eval machine.stack program.ops[machine.ip].instruction <;> rfl

theorem step_of_compares (hprogress : machine.Progress program setting)
    (hcompares : machine.Compares) : Compared machine.step.1 := by
  have hlt : machine.ip < program.ops.length := by
    apply Nat.lt_of_not_le
    intro hend
    exact hprogress.not_compares_of_le hend hcompares
  rw [hprogress.compares_iff_of_lt hlt] at hcompares
  rw [hprogress.step_result_of_lt hlt]
  rcases Setting.eval_of_compares hprogress.supplied hcompares with
    ⟨after, heval⟩ | ⟨index, value, expected, heval⟩
  · rw [heval]
    exact Or.inl rfl
  · rw [heval]
    exact Or.inr ⟨index, value, expected, rfl⟩

end Progress

/-- Machines that have got equally far in programs that are alike do the same next,
unless they compare. -/
theorem step_alike {first second : Program} {setting other : Setting} {left right : Machine}
    (hcount : setting.inputCount = other.inputCount)
    (hfactor : setting.branchingFactor = other.branchingFactor)
    (hops : List.Forall₂ Op.Alike first.ops second.ops)
    (hleft : left.Progress first setting) (hright : right.Progress second other)
    (hip : left.ip = right.ip) :
    left.depth = right.depth ∧ (left.Compares ↔ right.Compares) ∧
      (¬ left.Compares → left.step.1 = right.step.1) := by
  have hdepth : left.depth = right.depth := by
    rw [hleft.depth_eq, hright.depth_eq, hcount, hfactor, hip]
    exact Op.Alike.settledDepthOps_eq (List.forall₂_take right.ip hops) 0
  have hlength := hops.length_eq
  refine ⟨hdepth, ?_⟩
  rcases Nat.lt_or_ge left.ip first.ops.length with hlt | hend
  · have hlt' : right.ip < second.ops.length := by
      rw [← hlength, ← hip]
      exact hlt
    have hop : first.ops[left.ip].Alike second.ops[right.ip] := by
      have hget := (List.forall₂_iff_get.1 hops).2 left.ip hlt (hlength ▸ hlt)
      simpa [hip] using hget
    have hcompares : left.Compares ↔ right.Compares := by
      rw [hleft.compares_iff_of_lt hlt, hright.compares_iff_of_lt hlt', hcount, hdepth]
      exact hop.compares_iff right.depth
    refine ⟨hcompares, ?_⟩
    intro hnot
    rw [hleft.step_of_not_compares hlt hnot,
      hright.step_of_not_compares hlt' (mt hcompares.2 hnot), hop.outline_eq, hcount, hfactor,
      hdepth]
  · have hend' : second.ops.length ≤ right.ip := by
      rw [← hlength, ← hip]
      exact hend
    have hnot := hleft.not_compares_of_le hend
    have hnot' := hright.not_compares_of_le hend'
    refine ⟨iff_of_false hnot hnot', ?_⟩
    intro _
    rw [hleft.step_of_le hend, hright.step_of_le hend']

end Machine

/-- Whether a run that leaves `depth` values has an output. -/
def outlineOutput (depth : Nat) : Except ProgramError Unit :=
  if depth = 1 then .ok () else .error (.finalStackSize depth)

theorem Verdict.map_ofStack (expected : Bytes) (stack : List Bytes) :
    (Verdict.ofStack expected stack).map (fun _ => ()) =
      (outlineOutput stack.length).mapError Error.program := by
  rcases stack with _ | ⟨value, _ | ⟨second, rest⟩⟩ <;> rfl

/-- Verification ends as the outline of the program does, or a comparison finds a
difference. -/
theorem verify_cases {program : Program} {inputs : List Bytes} {setting : Setting}
    (hsetting : program.setting inputs = .ok setting) (hsupplied : setting.Supplied)
    (expected : Bytes) :
    (verify program inputs expected).map (fun _ => ()) =
        ((outlineOps setting.inputCount setting.branchingFactor 0 program.ops).bind
          outlineOutput).mapError Error.program ∨
      ∃ index value wanted,
        verify program inputs expected = .error (.valueMismatch index value wanted) := by
  rw [verify_of_setting hsetting]
  rcases Setting.evalOps_cases hsupplied [] program.ops with
    houtline | ⟨index, value, wanted, hmismatch⟩
  · have hjudged : ((setting.evalOps [] program.ops).bind (Verdict.ofStack expected)).map
          (fun _ => ()) =
        ((setting.evalOps [] program.ops).map List.length).bind fun depth =>
          (outlineOutput depth).mapError Error.program := by
      cases setting.evalOps [] program.ops with
      | ok stack => exact Verdict.map_ofStack expected stack
      | error cause => rfl
    rw [hjudged, houtline, List.length_nil]
    refine Or.inl ?_
    cases outlineOps setting.inputCount setting.branchingFactor 0 program.ops <;> rfl
  · rw [hmismatch]
    exact Or.inr ⟨index, value, wanted, rfl⟩

/-- Runs are oblivious to data.  Two programs with the same counts, whose ops differ in
their payloads at most, are driven to the same positions and depths by equally many
steps, whatever their hash functions and inputs are, and every step gives both the same
result unless it compares a value with an input.  If no comparison finds a difference,
both verify or both fail for the same cause. -/
theorem Machine.steps_oblivious {first second : Program} {inputs others : List Bytes}
    {left right : Machine}
    (hcount : first.metadata.inputCount = second.metadata.inputCount)
    (hfactor : first.metadata.branchingFactor = second.metadata.branchingFactor)
    (hops : List.Forall₂ Op.Alike first.ops second.ops)
    (hleft : start first inputs = .ok left) (hright : start second others = .ok right) :
    (∀ count,
      (left.steps count).ip = (right.steps count).ip ∧
      (left.steps count).depth = (right.steps count).depth ∧
      ((left.steps count).Compares ↔ (right.steps count).Compares) ∧
      (¬ (left.steps count).Compares →
        (left.steps count).step.1 = (right.steps count).step.1) ∧
      ((left.steps count).Compares →
        Compared (left.steps count).step.1 ∧ Compared (right.steps count).step.1)) ∧
    ∀ expected expected',
      (∀ index value wanted,
        verify first inputs expected ≠ .error (.valueMismatch index value wanted)) →
      (∀ index value wanted,
        verify second others expected' ≠ .error (.valueMismatch index value wanted)) →
      (verify first inputs expected).map (fun _ => ()) =
        (verify second others expected').map (fun _ => ()) := by
  obtain ⟨hip, hmetadata, hsetting, hprogress⟩ := progress_of_start hleft
  obtain ⟨hip', hmetadata', hsetting', hprogress'⟩ := progress_of_start hright
  have hinputs : left.setting.inputCount = right.setting.inputCount := by
    change left.metadata.inputCount = right.metadata.inputCount
    rw [hmetadata, hmetadata', hcount]
  have hfactors : left.setting.branchingFactor = right.setting.branchingFactor := by
    change left.metadata.branchingFactor = right.metadata.branchingFactor
    rw [hmetadata, hmetadata', hfactor]
  constructor
  · intro count
    have hreached : (left.steps count).ip = (right.steps count).ip := by
      rw [hprogress.ip_steps, hprogress'.ip_steps, hip, hip', hops.length_eq]
    obtain ⟨hdepth, hcompares, hresult⟩ := step_alike hinputs hfactors hops
      (hprogress.steps count) (hprogress'.steps count) hreached
    refine ⟨hreached, hdepth, hcompares, hresult, ?_⟩
    intro hcompare
    exact ⟨(hprogress.steps count).step_of_compares hcompare,
      (hprogress'.steps count).step_of_compares (hcompares.1 hcompare)⟩
  · intro expected expected' hverify hverify'
    rcases verify_cases hsetting hprogress.supplied expected with
      hresult | ⟨index, value, wanted, hmismatch⟩
    · rcases verify_cases hsetting' hprogress'.supplied expected' with
        hresult' | ⟨index, value, wanted, hmismatch⟩
      · rw [hresult, hresult', hinputs, hfactors, Op.Alike.outlineOps_eq hops]
      · exact absurd hmismatch (hverify' index value wanted)
    · exact absurd hmismatch (hverify index value wanted)

/-- An input that is hashed with a literal, a comparison that holds, and more values asked
for than there are. -/
def salted (metadata : Metadata) (salt : Bytes) : Program :=
  ⟨metadata, [Op.pushInput 0, Op.pushBytes salt, Op.hashChildren, Op.pushInput 1,
    Op.matchInput 1, Op.popHash 3]⟩

theorem Machine.steps_salted :
    let first := salted (Metadata.ofFunction .sha256 2 2) [1]
    let second := salted ((Metadata.ofFunction .shake128 2 2).declaring 16) [2, 3]
    ∃ left right, start first [[7], [8]] = .ok left ∧
      start second [[], [9, 9]] = .ok right ∧
      (left.steps 2).step.1 = (right.steps 2).step.1 ∧
      (left.steps 4).Compares ∧ Compared (right.steps 4).step.1 ∧
      verify first [[7], [8]] [] = .error (.program (.stackUnderflow 3 1)) ∧
      (verify second [[], [9, 9]] []).map (fun _ => ()) =
        .error (.program (.stackUnderflow 3 1)) := by
  intro first second
  have hcount : first.metadata.inputCount = second.metadata.inputCount := rfl
  have hfactor : first.metadata.branchingFactor = second.metadata.branchingFactor := rfl
  have hleft : start first [[7], [8]] = .ok (initial first [[7], [8]] .sha256 32) := rfl
  have hright : start second [[], [9, 9]] = .ok (initial second [[], [9, 9]] .shake128 16) := rfl
  have hops : List.Forall₂ Op.Alike first.ops second.ops := by
    simp [first, second, salted, Op.Alike, Op.pushBytes]
  have hcompares : ((initial first [[7], [8]] .sha256 32).steps 4).Compares :=
    ⟨Op.matchInput 1, rfl, 1, rfl, by decide, Nat.succ_pos 1⟩
  have hhashes : ¬ ((initial first [[7], [8]] .sha256 32).steps 2).Compares := by
    rintro ⟨op, hop, index, hindex, _⟩
    cases hop
    cases hindex
  have hverify : verify first [[7], [8]] [] = .error (.program (.stackUnderflow 3 1)) := rfl
  have hverify' : verify second [[], [9, 9]] [] = .error (.program (.stackUnderflow 3 1)) := rfl
  obtain ⟨hsteps, hresult⟩ := steps_oblivious hcount hfactor hops hleft hright
  refine ⟨_, _, hleft, hright, (hsteps 2).2.2.2.1 hhashes, hcompares,
    ((hsteps 4).2.2.2.2 hcompares).2, hverify, ?_⟩
  rw [← hresult [] [] (by simp [hverify]) (by simp [hverify']), hverify]
  rfl

end MerkleStack
