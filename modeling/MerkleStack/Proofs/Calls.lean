/-
Where calls lead.  Steps and runs can be called in any order, also after some of them
failed.  They lead where single steps lead, and there a machine has got through as many
ops of its program as its position says.
-/
import MerkleStack.Proofs.Refinement

namespace MerkleStack

/-- The stack after some ops, also after those of them that fail. -/
def Setting.settleOps (setting : Setting) (stack : List Bytes) (ops : List Op) : List Bytes :=
  ops.foldl (fun stack op => setting.settle stack op.instruction) stack

theorem Setting.settleOps_take_succ (setting : Setting) (stack : List Bytes) {ops : List Op}
    {position : Nat} (hlt : position < ops.length) :
    setting.settleOps stack (ops.take (position + 1)) =
      setting.settle (setting.settleOps stack (ops.take position))
        ops[position].instruction := by
  rw [settleOps, List.take_add_one, List.getElem?_eq_getElem hlt, List.foldl_append]
  rfl

namespace Machine

/-- The calls that move a machine on. -/
inductive Call
  | step
  | run
deriving DecidableEq, Repr

def call (machine : Machine) : Call → Except Error Unit × Machine
  | .step => machine.step
  | .run => machine.run

/-- The machine after some calls, whatever they returned. -/
def afterCalls (machine : Machine) (calls : List Call) : Machine :=
  calls.foldl (fun machine call => (machine.call call).2) machine

theorem steps_add (machine : Machine) (first second : Nat) :
    machine.steps (first + second) = (machine.steps first).steps second := by
  induction first generalizing machine with
  | zero => rw [Nat.zero_add, steps]
  | succ first ih => rw [Nat.add_right_comm, steps, steps, ih]

theorem steps_succ (machine : Machine) (count : Nat) :
    machine.steps (count + 1) = (machine.steps count).step.2 :=
  steps_add machine count 1

/-- A run leaves a machine where some number of steps leaves it. -/
theorem exists_steps_eq_runThrough (ops : List Op) (machine : Machine) :
    ∃ count, (runThrough ops machine).2 = machine.steps count := by
  induction ops generalizing machine with
  | nil => exact ⟨0, rfl⟩
  | cons op rest ih =>
      rcases hstep : machine.step with ⟨cause | _, next⟩
      · refine ⟨1, ?_⟩
        simp [runThrough, steps, hstep]
      · obtain ⟨count, hcount⟩ := ih next
        refine ⟨count + 1, ?_⟩
        simp [runThrough, steps, hstep, hcount]

theorem exists_steps_eq_call (machine : Machine) (call : Call) :
    ∃ count, (machine.call call).2 = machine.steps count := by
  cases call with
  | step => exact ⟨1, rfl⟩
  | run => exact exists_steps_eq_runThrough machine.pending machine

theorem exists_steps_eq_afterCalls (machine : Machine) (calls : List Call) :
    ∃ count, machine.afterCalls calls = machine.steps count := by
  induction calls generalizing machine with
  | nil => exact ⟨0, rfl⟩
  | cons call rest ih =>
      obtain ⟨first, hfirst⟩ := exists_steps_eq_call machine call
      obtain ⟨second, hsecond⟩ := ih (machine.call call).2
      refine ⟨first + second, ?_⟩
      rw [steps_add, ← hfirst, ← hsecond]
      rfl

/-- A machine that has got through the first ops of a program, as many as its position
says, and has the others to come. -/
structure Progress (machine : Machine) (program : Program) (setting : Setting) : Prop where
  supplied : setting.Supplied
  setting_eq : machine.setting = setting
  ip_le : machine.ip ≤ program.ops.length
  pending_eq : machine.pending = program.ops.drop machine.ip
  stack_eq : machine.stack = setting.settleOps [] (program.ops.take machine.ip)

namespace Progress

variable {machine : Machine} {program : Program} {setting : Setting}

theorem follows (hprogress : machine.Progress program setting) :
    machine.Follows setting (program.ops.drop machine.ip) machine.stack :=
  ⟨hprogress.supplied, hprogress.setting_eq, hprogress.pending_eq, rfl⟩

theorem follows_of_lt (hprogress : machine.Progress program setting)
    (hlt : machine.ip < program.ops.length) :
    machine.Follows setting (program.ops[machine.ip] :: program.ops.drop (machine.ip + 1))
      machine.stack := by
  have hfollows := hprogress.follows
  rw [List.drop_eq_getElem_cons hlt] at hfollows
  exact hfollows

/-- At the end a step changes nothing. -/
theorem step_of_le (hprogress : machine.Progress program setting)
    (hend : program.ops.length ≤ machine.ip) :
    machine.step = (.error (.program .pastEnd), machine) := by
  rw [Machine.step, hprogress.pending_eq, List.drop_of_length_le hend]

/-- Before the end a step carries out the op at the position and goes on by one. -/
theorem step_of_lt (hprogress : machine.Progress program setting)
    (hlt : machine.ip < program.ops.length) :
    machine.step =
      (machine.past (program.ops.drop (machine.ip + 1))).settled
        program.ops[machine.ip].instruction :=
  (hprogress.follows_of_lt hlt).step_eq

/-- A step keeps the progress of a machine, also a step that fails. -/
theorem step (hprogress : machine.Progress program setting) :
    machine.step.2.Progress program setting := by
  rcases Nat.lt_or_ge machine.ip program.ops.length with hlt | hend
  · rw [hprogress.step_of_lt hlt]
    refine ⟨hprogress.supplied, ?_, hlt, rfl, ?_⟩
    · rw [setting_settled]
      exact hprogress.setting_eq
    · change machine.setting.settle machine.stack _ =
        setting.settleOps [] (program.ops.take (machine.ip + 1))
      rw [setting.settleOps_take_succ [] hlt, hprogress.setting_eq, hprogress.stack_eq]
  · rw [hprogress.step_of_le hend]
    exact hprogress

theorem steps (hprogress : machine.Progress program setting) (count : Nat) :
    (machine.steps count).Progress program setting := by
  induction count with
  | zero => exact hprogress
  | succ count ih =>
      rw [steps_succ]
      exact ih.step

theorem afterCalls (hprogress : machine.Progress program setting) (calls : List Call) :
    (machine.afterCalls calls).Progress program setting := by
  obtain ⟨count, hcount⟩ := exists_steps_eq_afterCalls machine calls
  rw [hcount]
  exact hprogress.steps count

theorem ip_step (hprogress : machine.Progress program setting) :
    machine.step.2.ip = min (machine.ip + 1) program.ops.length := by
  rcases Nat.lt_or_ge machine.ip program.ops.length with hlt | hend
  · rw [hprogress.step_of_lt hlt]
    exact (Nat.min_eq_left hlt).symm
  · have hip : machine.ip = program.ops.length := Nat.le_antisymm hprogress.ip_le hend
    simp [hprogress.step_of_le hend, hip]

theorem ip_steps (hprogress : machine.Progress program setting) (count : Nat) :
    (machine.steps count).ip = min (machine.ip + count) program.ops.length := by
  induction count with
  | zero => exact (Nat.min_eq_left hprogress.ip_le).symm
  | succ count ih =>
      have hstep := (hprogress.steps count).ip_step
      rw [steps_succ, hstep, ih]
      omega

end Progress

/-- A machine starts at the first op of its program, in the setting that the ops are
evaluated in. -/
theorem progress_of_start {program : Program} {inputs : List Bytes} {machine : Machine}
    (hstart : start program inputs = .ok machine) :
    machine.ip = 0 ∧ machine.metadata = program.metadata ∧
      program.setting inputs = .ok machine.setting ∧
      machine.Progress program machine.setting := by
  rcases start_cases program inputs with
    ⟨cause, hcause, _⟩ | ⟨function, size, hcount, _, _, hinitial, hsetting⟩
  · rw [hcause] at hstart
    cases hstart
  · rw [hinitial] at hstart
    cases hstart
    exact ⟨rfl, rfl, hsetting, hcount, rfl, Nat.zero_le _, rfl, rfl⟩

end Machine

end MerkleStack
