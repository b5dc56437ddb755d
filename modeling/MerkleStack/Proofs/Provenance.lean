/-
Where values come from.  A step that succeeds puts one value on the stack or takes one away,
and a step that fails puts none there.  So after any calls every value on the stack is an
input, a payload or a digest of the resolved size that an earlier op put there, and the
stack is no deeper than the position.
-/
import MerkleStack.Proofs.Binding
import MerkleStack.Proofs.Stepping

namespace MerkleStack

namespace Instruction

/-- Whether an instruction hashes values of the stack. -/
def hashes : Instruction → Bool
  | hashChildren | popHash _ | peekHash _ => true
  | _ => false

theorem hashes_of_arity? {branchingFactor : UInt32} {instruction : Instruction} {count : Nat}
    (harity : instruction.arity? branchingFactor = some count) : instruction.hashes = true := by
  cases instruction with
  | hashChildren | popHash _ | peekHash _ => rfl
  | pushInput _ | pushBytes _ | matchInput _ | unknown _ _ => cases harity

theorem length_kept_le {α : Type} (count : Nat) (stack : List α) (instruction : Instruction) :
    (instruction.kept count stack).length ≤ stack.length := by
  cases instruction <;> simp [kept]

end Instruction

namespace Setting

variable {setting : Setting} {stack after : List Bytes} {instruction : Instruction}
  {value : Bytes} {cause : Error}

/-- Where an instruction has a value from that it puts on a stack: from an input, from its
payload, or from the values on top. -/
inductive Gives (setting : Setting) (stack : List Bytes) (instruction : Instruction)
    (value : Bytes) : Prop
  | input (index : UInt64) (hinstruction : instruction = .pushInput index)
      (hvalue : setting.inputs[index.toNat]? = some value)
  | payload (hinstruction : instruction = .pushBytes value)
  | digest (values : List Bytes)
      (hoperands : instruction.operands? setting.branchingFactor stack = some values)
      (hvalue : value = setting.digest values.flatten)

/-- A value is on the stack after an instruction if it was there before or is given. -/
theorem mem_or_gives_of_eval (heval : setting.eval stack instruction = .ok after)
    (hvalue : value ∈ after) :
    value ∈ stack ∨ after.head? = some value ∧ setting.Gives stack instruction value := by
  rcases eval_eq_ok.1 heval with ⟨count, harity, hcount, rfl⟩ |
    ⟨index, other, rfl, hother, rfl⟩ | ⟨payload, rfl, rfl⟩ | ⟨index, other, rfl, hother, rfl⟩
  · rcases List.mem_cons.1 hvalue with rfl | hkept
    · exact Or.inr ⟨rfl, .digest _ (operands?_of_eval setting harity heval).1 rfl⟩
    · exact Or.inl (Instruction.mem_of_mem_kept hkept)
  · rcases List.mem_cons.1 hvalue with rfl | hold
    · exact Or.inr ⟨rfl, .input index rfl hother⟩
    · exact Or.inl hold
  · rcases List.mem_cons.1 hvalue with rfl | hold
    · exact Or.inr ⟨rfl, .payload rfl⟩
    · exact Or.inl hold
  · exact Or.inl (List.mem_cons_of_mem other hvalue)

theorem length_le_of_eval (heval : setting.eval stack instruction = .ok after) :
    after.length ≤ stack.length + 1 := by
  rcases eval_eq_ok.1 heval with ⟨count, _, _, rfl⟩ |
    ⟨_, _, _, _, rfl⟩ | ⟨_, _, rfl⟩ | ⟨_, _, _, _, rfl⟩
  · exact Nat.succ_le_succ (Instruction.length_kept_le count stack instruction)
  · exact Nat.le_refl _
  · exact Nat.le_refl _
  · exact Nat.le_add_right_of_le (Nat.le_succ _)

/-- A failure puts nothing on the stack. -/
theorem leftover_sublist (stack : List Bytes) (cause : Error) :
    (leftover stack cause).Sublist stack := by
  cases cause with
  | valueMismatch _ _ _ => exact List.tail_sublist stack
  | _ => exact List.Sublist.refl stack

theorem length_settle_le (setting : Setting) (stack : List Bytes) (instruction : Instruction) :
    (setting.settle stack instruction).length ≤ stack.length + 1 := by
  cases heval : setting.eval stack instruction with
  | ok after =>
      rw [settle_of_ok heval]
      exact length_le_of_eval heval
  | error cause =>
      rw [settle_of_error heval]
      exact Nat.le_succ_of_le (leftover_sublist stack cause).length_le

theorem length_settleOps_le (setting : Setting) (stack : List Bytes) (ops : List Op) :
    (setting.settleOps stack ops).length ≤ stack.length + ops.length := by
  induction ops generalizing stack with
  | nil => exact Nat.le_refl _
  | cons op rest ih =>
      have hop := setting.length_settle_le stack op.instruction
      have hrest := ih (setting.settle stack op.instruction)
      rw [settleOps, List.foldl_cons, List.length_cons]
      rw [settleOps] at hrest
      omega

/-- An instruction that hashes has its operands on the stack, unless it fails. -/
theorem operands?_of_hashes (heval : setting.eval stack instruction = .ok after)
    (hhashes : instruction.hashes = true) :
    ∃ values, instruction.operands? setting.branchingFactor stack = some values := by
  rcases eval_eq_ok.1 heval with ⟨count, harity, _, _⟩ |
    ⟨_, _, rfl, _, _⟩ | ⟨_, rfl, _⟩ | ⟨_, _, rfl, _, _⟩
  · exact ⟨stack.take count, (operands?_of_eval setting harity heval).1⟩
  · cases hhashes
  · cases hhashes
  · cases hhashes

end Setting

namespace Machine

variable {machine : Machine} {program : Program} {setting : Setting} {op : Op} {value : Bytes}

/-- The next step carries `op` out without failure and puts `value` on the stack. -/
structure Puts (machine : Machine) (setting : Setting) (op : Op) (value : Bytes) : Prop where
  done : machine.step.1 = .ok ()
  top : machine.step.2.stack.head? = some value
  gives : setting.Gives machine.stack op.instruction value

/-- Of the ops below `ip`, the one at `position` is the last that was carried out without
failure. -/
structure LastSuccess (machine : Machine) (ip position : Nat) : Prop where
  lt : position < ip
  done : (machine.steps position).step.1 = .ok ()
  failed : ∀ later, position < later → later < ip →
    ∃ cause, (machine.steps later).step.1 = .error cause

theorem output_eq_ok : machine.output = .ok value ↔ machine.stack = [value] := by
  rw [output]
  rcases machine.stack with _ | ⟨top, _ | ⟨second, rest⟩⟩ <;> simp

/-- A step that fails leaves nothing new on the stack. -/
theorem Follows.stack_of_step_error {stack : List Bytes} {rest : List Op} {cause : Error}
    (hfollows : machine.Follows setting (op :: rest) stack)
    (hstep : machine.step.1 = .error cause) :
    machine.step.2.stack = Setting.leftover stack cause := by
  rw [hfollows.step.stack_eq]
  exact Setting.settle_of_error (hfollows.eval_of_step_error hstep)

namespace Progress

theorem depth_le_ip (hprogress : machine.Progress program setting) :
    machine.depth ≤ machine.ip := by
  have hlength := setting.length_settleOps_le [] (program.ops.take machine.ip)
  rw [depth, hprogress.stack_eq]
  rw [List.length_nil, Nat.zero_add, List.length_take] at hlength
  exact Nat.le_trans hlength (Nat.min_le_left _ _)

/-- A value is on the stack after a step if it was there before or the step puts it
there. -/
theorem mem_or_puts_of_step (hprogress : machine.Progress program setting)
    (hvalue : value ∈ machine.step.2.stack) :
    value ∈ machine.stack ∨
      ∃ op, program.ops[machine.ip]? = some op ∧ machine.Puts setting op value := by
  rcases Nat.lt_or_ge machine.ip program.ops.length with hlt | hend
  · have hfollows := hprogress.follows_of_lt hlt
    cases hstep : machine.step.1 with
    | error cause =>
        rw [hfollows.stack_of_step_error hstep] at hvalue
        exact Or.inl ((Setting.leftover_sublist machine.stack cause).subset hvalue)
    | ok done =>
        have heval := hfollows.eval_of_step_ok hstep
        rcases Setting.mem_or_gives_of_eval heval hvalue with hold | ⟨htop, hgives⟩
        · exact Or.inl hold
        · exact Or.inr ⟨_, List.getElem?_eq_getElem hlt, hstep, htop, hgives⟩
  · rw [hprogress.step_of_le hend] at hvalue
    exact Or.inl hvalue

/-- Every value on the stack was there at first or was put there by one of the steps. -/
theorem mem_or_puts_of_steps (hprogress : machine.Progress program setting) {count : Nat}
    (hvalue : value ∈ (machine.steps count).stack) :
    value ∈ machine.stack ∨
      ∃ earlier < count, ∃ op, program.ops[(machine.steps earlier).ip]? = some op ∧
        (machine.steps earlier).Puts setting op value := by
  induction count with
  | zero => exact Or.inl hvalue
  | succ count ih =>
      rw [steps_succ] at hvalue
      rcases (hprogress.steps count).mem_or_puts_of_step hvalue with hold | ⟨op, hop, hputs⟩
      · rcases ih hold with hfirst | ⟨earlier, hlt, hputs⟩
        · exact Or.inl hfirst
        · exact Or.inr ⟨earlier, Nat.lt_succ_of_lt hlt, hputs⟩
      · exact Or.inr ⟨count, Nat.lt_succ_self count, op, hop, hputs⟩

theorem hashes_of_operands? {values : List Bytes} (hprogress : machine.Progress program setting)
    (hop : program.ops[machine.ip]? = some op)
    (hoperands : op.instruction.operands? setting.branchingFactor machine.stack = some values) :
    machine.Hashes op values (setting.digest values.flatten) := by
  obtain ⟨hlt, rfl⟩ := List.getElem?_eq_some_iff.1 hop
  exact (hprogress.follows_of_lt hlt).hashes hoperands

/-- A step that hashes puts a digest on the stack, unless it fails. -/
theorem hashes_of_step (hprogress : machine.Progress program setting)
    (hop : program.ops[machine.ip]? = some op) (hhashes : op.instruction.hashes = true)
    (hstep : machine.step.1 = .ok ()) :
    ∃ values, machine.Hashes op values (setting.digest values.flatten) := by
  obtain ⟨hlt, rfl⟩ := List.getElem?_eq_some_iff.1 hop
  have heval := (hprogress.follows_of_lt hlt).eval_of_step_ok hstep
  obtain ⟨values, hoperands⟩ := Setting.operands?_of_hashes heval hhashes
  exact ⟨values, hprogress.hashes_of_operands? hop hoperands⟩

theorem stack_step_of_error {cause : Error} (hprogress : machine.Progress program setting)
    (hstep : machine.step.1 = .error cause)
    (hcause : ∀ index value wanted, cause ≠ .valueMismatch index value wanted) :
    machine.step.2.stack = machine.stack := by
  rcases Nat.lt_or_ge machine.ip program.ops.length with hlt | hend
  · rw [(hprogress.follows_of_lt hlt).stack_of_step_error hstep]
    cases cause with
    | valueMismatch index value wanted => exact absurd rfl (hcause index value wanted)
    | _ => rfl
  · rw [hprogress.step_of_le hend]

/-- Steps that fail leave the stack as it was, if none of them finds a difference. -/
theorem stack_steps_of_error (hprogress : machine.Progress program setting) {first last : Nat}
    (hle : first ≤ last)
    (hfailed : ∀ position, first ≤ position → position < last →
      ∃ cause, (machine.steps position).step.1 = .error cause ∧
        ∀ index value wanted, cause ≠ .valueMismatch index value wanted) :
    (machine.steps last).stack = (machine.steps first).stack := by
  induction last, hle using Nat.le_induction with
  | base => rfl
  | succ last hle ih =>
      obtain ⟨cause, hstep, hcause⟩ := hfailed last hle (Nat.lt_succ_self last)
      rw [steps_succ, (hprogress.steps last).stack_step_of_error hstep hcause]
      apply ih
      intro position hfirst hlast
      exact hfailed position hfirst (Nat.lt_succ_of_lt hlast)

/-- The last step that succeeds leaves the stack that the run leaves, unless a comparison
behind it finds a difference. -/
theorem stack_of_lastSuccess {ip position : Nat} (hprogress : machine.Progress program setting)
    (hlast : machine.LastSuccess ip position)
    (hmismatch : ∀ later, position < later → later < ip → ∀ index value wanted,
      (machine.steps later).step.1 ≠ .error (.valueMismatch index value wanted)) :
    (machine.steps ip).stack = (machine.steps position).step.2.stack := by
  rw [← steps_succ]
  apply hprogress.stack_steps_of_error hlast.lt
  intro later hlater hlt
  obtain ⟨cause, hcause⟩ := hlast.failed later hlater hlt
  refine ⟨cause, hcause, ?_⟩
  rintro index value wanted rfl
  exact hmismatch later hlater hlt index value wanted hcause

end Progress

/-- Every value on the stack has a source.  Wherever calls have led a machine, also through
failures, the stack is no deeper than the position, and each value on it is an input, a
payload or a digest that an op below the position put there; a digest has the size that the
metadata resolve to.  So an output has that size if the last op that succeeded hashes, and
no later comparison took its digest away. -/
theorem provenance_afterCalls {program : Program} {inputs : List Bytes} {machine : Machine}
    (hstart : start program inputs = .ok machine) (calls : List Call) :
    let current := machine.afterCalls calls
    ∃ function size, program.metadata.function = .ok function ∧
      (0 < size ∧ size = match function.policy with
        | .fixed => 32
        | .declared => program.metadata.outputLength.toNat) ∧
      (current.depth ≤ current.ip ∧ current.ip ≤ program.ops.length) ∧
      current = machine.steps current.ip ∧
      (∀ value ∈ current.stack, ∃ position < current.ip, ∃ op,
        program.ops[position]? = some op ∧
        (machine.steps position).step.1 = .ok () ∧
        (machine.steps position).step.2.stack.head? = some value ∧
        ((∃ index, op.instruction = .pushInput index ∧ inputs[index.toNat]? = some value) ∨
          op.instruction = .pushBytes value ∨
          op.instruction.hashes = true ∧ value.length = size ∧
            ∃ values, (machine.steps position).Hashes op values value ∧
              value = function.digest size values.flatten)) ∧
      ∀ position op output, machine.LastSuccess current.ip position →
        program.ops[position]? = some op → op.instruction.hashes = true →
        (∀ later, position < later → later < current.ip → ∀ index value wanted,
          (machine.steps later).step.1 ≠ .error (.valueMismatch index value wanted)) →
        current.output = .ok output → output.length = size := by
  intro current
  obtain ⟨function, size, hcount, hfunction, hsize, rfl⟩ := start_eq_ok.1 hstart
  obtain ⟨hip, _, _, hprogress⟩ := progress_of_start hstart
  rw [setting_initial] at hprogress
  have hcurrent := hprogress.afterCalls calls
  have hsteps : current = (initial program inputs function size).steps current.ip :=
    afterCalls_eq_steps_ip hprogress hip calls
  have hposition : ∀ position < current.ip,
      ((initial program inputs function size).steps position).ip = position := by
    intro position hlt
    have hle : current.ip ≤ program.ops.length := hcurrent.ip_le
    rw [hprogress.ip_steps, hip]
    omega
  have hlength : ∀ message, (function.digest size message).length = size := by
    intro message
    rw [function.length_digest, HashFunction.digestSize_of_resolveSize hsize]
  refine ⟨function, size, hfunction, HashFunction.size_of_resolveSize hsize,
    ⟨hcurrent.depth_le_ip, hcurrent.ip_le⟩, hsteps, ?_, ?_⟩
  · intro value hvalue
    rw [hsteps] at hvalue
    rcases hprogress.mem_or_puts_of_steps hvalue with hfirst | ⟨position, hlt, op, hop, hputs⟩
    · exact absurd hfirst List.not_mem_nil
    · have hget := hop
      rw [hposition position hlt] at hget
      refine ⟨position, hlt, op, hget, hputs.done, hputs.top, ?_⟩
      cases hputs.gives with
      | input index hinstruction hinput => exact Or.inl ⟨index, hinstruction, hinput⟩
      | payload hinstruction => exact Or.inr (Or.inl hinstruction)
      | digest values hoperands hdigest =>
          have hhashes := (hprogress.steps position).hashes_of_operands? hop hoperands
          have harity := (Instruction.operands?_eq_some hoperands).1
          refine Or.inr (Or.inr ⟨Instruction.hashes_of_arity? harity, ?_, values, ?_, hdigest⟩)
          · rw [hdigest]
            exact hlength values.flatten
          · rw [hdigest]
            exact hhashes
  · intro position op output hlast hop hhashes hmismatch houtput
    rw [← hposition position hlast.lt] at hop
    obtain ⟨values, hdigest⟩ :=
      (hprogress.steps position).hashes_of_step hop hhashes hlast.done
    rw [output_eq_ok, hsteps, hprogress.stack_of_lastSuccess hlast hmismatch] at houtput
    have hpushed := hdigest.pushed
    rw [houtput] at hpushed
    cases hpushed
    exact hlength values.flatten

/-- A digest that is the output, though a later op fails. -/
theorem provenance_afterCalls_underflow :
    let program : Program :=
      ⟨(Metadata.ofFunction .blake3Xof 1 0).declaring 1,
        [Op.pushInput 0, Op.popHash 1, Op.popHash 2]⟩
    ∃ machine output, start program [[97]] = .ok machine ∧
      machine.LastSuccess (machine.afterCalls [.step, .run]).ip 1 ∧
      (machine.steps 2).step.1 = .error (.program (.stackUnderflow 2 1)) ∧
      (machine.afterCalls [.step, .run]).output = .ok output ∧ output.length = 1 := by
  intro program
  have hstart : start program [[97]] = .ok (initial program [[97]] .blake3Xof 1) := rfl
  have hip : ((initial program [[97]] .blake3Xof 1).afterCalls [.step, .run]).ip = 3 := by
    decide +kernel
  have hunderflow : ((initial program [[97]] .blake3Xof 1).steps 2).step.1 =
      .error (.program (.stackUnderflow 2 1)) := by
    decide +kernel
  have hlast : (initial program [[97]] .blake3Xof 1).LastSuccess 3 1 := by
    refine ⟨by decide, rfl, ?_⟩
    intro later hlater hlt
    obtain rfl : later = 2 := by omega
    exact ⟨_, hunderflow⟩
  have houtput : ((initial program [[97]] .blake3Xof 1).afterCalls [.step, .run]).output =
      .ok [23] := by
    decide +kernel
  obtain ⟨function, size, hfunction, ⟨_, hsize⟩, _, _, _, hlength⟩ :=
    provenance_afterCalls hstart [.step, .run]
  rw [hip] at hlength
  cases hfunction
  refine ⟨_, [23], hstart, ?_, hunderflow, houtput, ?_⟩
  · rw [hip]
    exact hlast
  · refine (hlength 1 _ [23] hlast rfl rfl ?_ houtput).trans hsize
    intro later hlater hlt index value wanted hmismatch
    obtain rfl : later = 2 := by omega
    rw [hunderflow] at hmismatch
    cases hmismatch

/-- A comparison that finds a difference takes the digest away, and what was below it is the
output: a payload of another size, though the last op that succeeded hashes. -/
theorem output_size_after_mismatch :
    let program : Program :=
      ⟨(Metadata.ofFunction .blake3Xof 1 0).declaring 1,
        [Op.pushBytes [98, 99, 100], Op.pushInput 0, Op.popHash 1, Op.matchInput 0]⟩
    ∃ machine output, start program [[97]] = .ok machine ∧
      program.metadata.function = .ok .blake3Xof ∧
      HashFunction.blake3Xof.resolveSize program.metadata.outputLength = .ok 1 ∧
      machine.LastSuccess (machine.afterCalls [.run]).ip 2 ∧
      program.ops[2]?.map (fun op => op.instruction.hashes) = some true ∧
      (machine.afterCalls [.run]).output = .ok output ∧ output.length ≠ 1 := by
  intro program
  have hstart : start program [[97]] = .ok (initial program [[97]] .blake3Xof 1) := rfl
  have hip : ((initial program [[97]] .blake3Xof 1).afterCalls [.run]).ip = 4 := by
    decide +kernel
  have hmismatch : ((initial program [[97]] .blake3Xof 1).steps 3).step.1 =
      .error (.valueMismatch 0 [23] [97]) := by
    decide +kernel
  have houtput : ((initial program [[97]] .blake3Xof 1).afterCalls [.run]).output =
      .ok [98, 99, 100] := by
    decide +kernel
  refine ⟨_, [98, 99, 100], hstart, rfl, rfl, ?_, rfl, houtput, by decide⟩
  rw [hip]
  refine ⟨by decide, rfl, ?_⟩
  intro later hlater hlt
  obtain rfl : later = 3 := by omega
  exact ⟨_, hmismatch⟩

end Machine

end MerkleStack
