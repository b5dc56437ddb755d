/-
Popping and peeking.  Three ops hash values from the top of the stack.  They differ in where
they take the number of values from and in what they leave under the digest; when they fail,
and which digest they push, is the same for all of them.
-/
import MerkleStack.Proofs.Stepping

namespace MerkleStack

namespace Machine

/-- The machine with other ops to come. -/
def facing (machine : Machine) (ops : List Op) : Machine :=
  { machine with pending := ops }

theorem Follows.facing {machine : Machine} {setting : Setting} {ops : List Op}
    {stack : List Bytes} (hfollows : machine.Follows setting ops stack) (others : List Op) :
    (machine.facing others).Follows setting others stack :=
  ⟨hfollows.supplied, hfollows.setting_eq, rfl, hfollows.stack_eq⟩

/-- Steps do not look ahead at the ops behind them. -/
theorem Follows.steps_facing {machine : Machine} {setting : Setting} {before rest : List Op}
    {stack : List Bytes} (hfollows : machine.Follows setting (before ++ rest) stack)
    (others : List Op) :
    (machine.facing (before ++ others)).steps before.length =
      (machine.steps before.length).facing others := by
  induction before generalizing machine stack with
  | nil => rfl
  | cons op before ih =>
      have hstep : (machine.facing (op :: (before ++ others))).step.2 =
          machine.step.2.facing (before ++ others) := by
        rw [(hfollows.facing _).step_eq, hfollows.step_eq]
        rfl
      rw [List.length_cons, Machine.steps, Machine.steps, ← ih hfollows.step, ← hstep]
      rfl

/-- Any ops can be what a machine that was moved by calls faces: single steps lead there in
the program that goes on with these ops. -/
theorem exists_start_facing {program : Program} {inputs : List Bytes} {machine : Machine}
    (hstart : start program inputs = .ok machine) (calls : List Call) (others : List Op) :
    ∃ other, start ⟨program.metadata,
          program.ops.take (machine.afterCalls calls).ip ++ others⟩ inputs = .ok other ∧
        other.steps (machine.afterCalls calls).ip =
          (machine.afterCalls calls).facing others := by
  obtain ⟨hip, _, _, hprogress⟩ := progress_of_start hstart
  have hreached := afterCalls_eq_steps_ip hprogress hip calls
  have hle := (hprogress.afterCalls calls).ip_le
  generalize machine.afterCalls calls = current at hreached hle ⊢
  have hfollows := hprogress.follows
  rw [hip, List.drop_zero, ← List.take_append_drop current.ip program.ops] at hfollows
  have hsteps := hfollows.steps_facing others
  rw [List.length_take, Nat.min_eq_left hle, ← hreached] at hsteps
  refine ⟨_, ?_, hsteps⟩
  obtain ⟨function, size, hcount, hfunction, hsize, rfl⟩ := start_eq_ok.1 hstart
  exact start_eq_ok.2 ⟨function, size, hcount, hfunction, hsize, rfl⟩

/-- What the next op does if it hashes `count` values.  If they are not all there, it fails
and leaves the stack as it was; otherwise it succeeds and leaves the values `after`, which
are `depth` values. -/
structure HashOutcome (machine : Machine) (count : Nat) (after : List Bytes) (depth : Nat) :
    Prop where
  ip_step : machine.step.2.ip = machine.ip + 1
  underflow : machine.depth < count →
    machine.step.1 = .error (.program (.stackUnderflow count machine.depth)) ∧
      machine.step.2.stack = machine.stack
  success : count ≤ machine.depth →
    machine.step.1 = .ok () ∧ machine.step.2.stack = after ∧ machine.step.2.depth = depth

theorem Follows.hashOutcome {machine : Machine} {setting : Setting} {op : Op} {rest : List Op}
    {stack : List Bytes} {instruction : Instruction} {count : Nat}
    (hfollows : machine.Follows setting (op :: rest) stack)
    (hop : op.instruction = instruction)
    (harity : instruction.arity? setting.branchingFactor = some count) :
    machine.HashOutcome count
      (setting.digest (stack.take count).flatten :: instruction.kept count stack)
      ((instruction.kept count stack).length + 1) := by
  have hdepth : machine.depth = stack.length := congrArg List.length hfollows.stack_eq
  refine ⟨hfollows.ip_step, ?_, ?_⟩
  · intro hlt
    rw [hdepth] at hlt ⊢
    have heval := Setting.eval_of_length_lt harity hlt
    rw [hfollows.step_result, hfollows.step.stack_eq, hop, Setting.settle_of_error heval, heval,
      hfollows.stack_eq]
    exact ⟨rfl, rfl⟩
  · intro hle
    rw [hdepth] at hle
    have heval := Setting.eval_of_le_length harity hle
    rw [depth, hfollows.step_result, hfollows.step.stack_eq, hop, Setting.settle_of_ok heval,
      heval]
    exact ⟨rfl, rfl, rfl⟩

/-- Popping and peeking agree.  Wherever calls have led a machine, let it face an op that
hashes `count` values, as it does in the program that goes on with this op.  If there are
fewer values, the op fails for that and the stack stays, whether it peeks, pops or takes the
branching factor for its count.  Otherwise it pushes one and the same digest, that of these
values from the top one down: on the whole stack if it peeks, else on what lies below them. -/
theorem hashing_agrees {program : Program} {inputs : List Bytes} {machine : Machine}
    (hstart : start program inputs = .ok machine) (calls : List Call) :
    let current := machine.afterCalls calls
    ∃ function size, program.metadata.function = .ok function ∧
      function.resolveSize program.metadata.outputLength = .ok size ∧
      ∀ (count : UInt64) (op : Op) (rest : List Op),
        let facing := current.facing (op :: rest)
        let digest := function.digest size (current.stack.take count.toNat).flatten
        let popped := digest :: current.stack.drop count.toNat
        (∃ other, start ⟨program.metadata, program.ops.take current.ip ++ op :: rest⟩ inputs =
            .ok other ∧ other.steps current.ip = facing) ∧
        (op.instruction = .peekHash count →
          facing.HashOutcome count.toNat (digest :: current.stack) (current.depth + 1)) ∧
        (op.instruction = .popHash count →
          facing.HashOutcome count.toNat popped (current.depth - count.toNat + 1)) ∧
        (op.instruction = .hashChildren → 1 ≤ count.toNat →
          program.metadata.branchingFactor.toNat = count.toNat →
          facing.HashOutcome count.toNat popped (current.depth - count.toNat + 1)) := by
  intro current
  obtain ⟨_, _, _, hprogress⟩ := progress_of_start hstart
  obtain ⟨function, size, _, hfunction, hsize, rfl⟩ := start_eq_ok.1 hstart
  refine ⟨function, size, hfunction, hsize, ?_⟩
  intro count op rest facing digest popped
  have hfollows := (hprogress.afterCalls calls).follows.facing (op :: rest)
  rw [setting_initial] at hfollows
  have hdrop : (current.stack.drop count.toNat).length = current.depth - count.toNat :=
    List.length_drop
  refine ⟨exists_start_facing hstart calls (op :: rest), ?_, ?_, ?_⟩
  · intro hop
    exact hfollows.hashOutcome hop rfl
  · intro hop
    rw [← hdrop]
    exact hfollows.hashOutcome hop rfl
  · intro hop hpos hfactor
    have harity : Instruction.hashChildren.arity? program.metadata.branchingFactor =
        some count.toNat := by
      rw [← hfactor]
      exact Instruction.arity?_hashChildren (hfactor ▸ hpos)
    rw [← hdrop]
    exact hfollows.hashOutcome hop harity

/-- A digest was pushed and two ops failed before, the second of them a comparison, which
removed its value. -/
theorem hashing_agrees_resumed :
    let program : Program := ⟨Metadata.ofFunction .sha256 1 2,
      [Op.pushInput 0, Op.peekHash 1, Op.popHash 7, Op.pushBytes [1, 2], Op.pushBytes [3],
        Op.matchInput 0]⟩
    ∃ machine, start program [[9]] = .ok machine ∧
      let current := machine.afterCalls [.run, .run]
      current.ip = 6 ∧ current.depth = 3 ∧
      (current.facing [Op.peekHash 2]).step.2.depth = 4 ∧
      (current.facing [Op.popHash 2]).step.2.depth = 2 ∧
      (current.facing [Op.popHash 2]).step.2.stack =
        (current.facing [Op.hashChildren]).step.2.stack ∧
      (current.facing [Op.peekHash 4]).step.1 = .error (.program (.stackUnderflow 4 3)) ∧
      (current.facing [Op.popHash 4]).step.1 = .error (.program (.stackUnderflow 4 3)) := by
  intro program
  have hstart : start program [[9]] = .ok (initial program [[9]] .sha256 32) := rfl
  obtain ⟨function, size, _, _, hagrees⟩ := hashing_agrees hstart [.run, .run]
  have hdepth : ((initial program [[9]] .sha256 32).afterCalls [.run, .run]).depth = 3 := rfl
  have hpeek := (hagrees 2 (Op.peekHash 2) []).2.1 rfl
  have hpop := (hagrees 2 (Op.popHash 2) []).2.2.1 rfl
  have hchildren := (hagrees 2 Op.hashChildren []).2.2.2 rfl (by decide) rfl
  have hpeek' := (hagrees 4 (Op.peekHash 4) []).2.1 rfl
  have hpop' := (hagrees 4 (Op.popHash 4) []).2.2.1 rfl
  refine ⟨_, hstart, rfl, hdepth, ?_, ?_, ?_, ?_, ?_⟩
  · exact (hpeek.success (by decide)).2.2
  · exact (hpop.success (by decide)).2.2
  · exact (hpop.success (by decide)).2.1.trans (hchildren.success (by decide)).2.1.symm
  · exact (hpeek'.underflow (by decide)).1
  · exact (hpop'.underflow (by decide)).1

end Machine

end MerkleStack
