/-
No call faults.  Three operations of a machine have no result outside of their range: a
difference of lengths, a cut of the stack, and the use of a hasher whose digest was
taken.  A guarded machine faults there; after every sequence of calls it does not, and
does what the machine does.
-/
import MerkleStack.Proofs.Outline

namespace MerkleStack

/-- Why an operation has no result. -/
inductive Fault
  | negativeLength
  | cutOutOfRange
  | spentHasher
deriving DecidableEq, Repr

def Fault.subtract (whole part : Nat) : Except Fault Nat :=
  if part ≤ whole then .ok (whole - part) else .error .negativeLength

/-- A stack cut at a height from its bottom: the values above, the top one first, and the
values below. -/
def Fault.cut (stack : List Bytes) (height : Nat) : Except Fault (List Bytes × List Bytes) :=
  if height ≤ stack.length then
    .ok (stack.take (stack.length - height), stack.drop (stack.length - height))
  else
    .error .cutOutOfRange

/-- The causes for which an op fails.  An input that is declared but not there is none of
them, and a spent hasher is none either. -/
def Error.OfOp : Error → Prop
  | .program (.unknownOpcode _) => True
  | .program (.inputOutOfBounds _ _) => True
  | .program (.stackUnderflow _ _) => True
  | .program (.badBranchingFactor _) => True
  | .valueMismatch _ _ _ => True
  | _ => False

theorem Instruction.ofOp_of_outline {inputCount branchingFactor : UInt32} {depth : Nat}
    {instruction : Instruction} {cause : ProgramError}
    (houtline : instruction.outline inputCount branchingFactor depth = .error cause) :
    (Error.program cause).OfOp := by
  cases instruction <;> grind [outline, Error.OfOp]

namespace Setting

variable {setting : Setting} {cause : Error}

theorem ofOp_of_eval (hsupplied : setting.Supplied) {stack : List Bytes}
    {instruction : Instruction} (heval : setting.eval stack instruction = .error cause) :
    cause.OfOp := by
  rcases eval_cases hsupplied stack instruction with
    ⟨after, hok, _⟩ | ⟨other, herror, houtline⟩ | ⟨index, value, expected, herror, _⟩
  · rw [hok] at heval
    cases heval
  · rw [herror] at heval
    cases heval
    exact Instruction.ofOp_of_outline houtline
  · rw [herror] at heval
    cases heval
    trivial

theorem ofOp_of_evalOps (hsupplied : setting.Supplied) {stack : List Bytes} {ops : List Op}
    (heval : setting.evalOps stack ops = .error cause) : cause.OfOp := by
  induction ops generalizing stack with
  | nil => cases heval
  | cons op rest ih =>
      cases hop : setting.eval stack op.instruction with
      | error other =>
          rw [evalOps_cons_of_error hop] at heval
          cases heval
          exact ofOp_of_eval hsupplied hop
      | ok after =>
          rw [evalOps_cons_of_ok hop] at heval
          exact ih heval

end Setting

namespace Machine

/-- Hash the `count` values on top, which stay if the instruction peeks. -/
def guardedHash (machine : Machine) (instruction : Instruction) (count : Nat) :
    Except Fault (Except Error Unit × Machine) :=
  if machine.depth < count then
    return (.error (.program (.stackUnderflow count machine.depth)), machine)
  else do
    let height ← Fault.subtract machine.depth count
    let (top, below) ← Fault.cut machine.stack height
    let (digest, hasher) ← (machine.hasher.sumOf top).mapError fun _ => Fault.spentHasher
    let kept := match instruction with
      | .peekHash _ => machine.stack
      | _ => below
    return (.ok (), { machine with hasher, stack := digest :: kept })

/-- Carry out one instruction.  Only those that hash can fault. -/
def guardedExecute (machine : Machine) (instruction : Instruction) :
    Except Fault (Except Error Unit × Machine) :=
  match instruction.arity? machine.metadata.branchingFactor with
  | some count => machine.guardedHash instruction count
  | none => return machine.execute instruction

def guardedStep (machine : Machine) : Except Fault (Except Error Unit × Machine) :=
  match machine.pending with
  | [] => return (.error (.program .pastEnd), machine)
  | op :: rest => (machine.past rest).guardedExecute op.instruction

/-- Run as many ops as the list is long, up to the first failure, of which the position
is told. -/
def guardedRunThrough : List Op → Machine → Except Fault (Except Error Unit × Machine)
  | [], machine => return (.ok (), machine)
  | _ :: rest, machine => do
      match ← machine.guardedStep with
      | (.ok (), next) => guardedRunThrough rest next
      | (.error cause, next) =>
          let _failed ← Fault.subtract next.ip 1
          return (.error cause, next)

def guardedCall (machine : Machine) : Call → Except Fault (Except Error Unit × Machine)
  | .step => machine.guardedStep
  | .run => guardedRunThrough machine.pending machine

/-- Values that were found to be there can be counted off and cut off, and the hasher
takes them. -/
theorem guardedHash_eq (machine : Machine) {instruction : Instruction} {count : Nat}
    (harity : instruction.arity? machine.metadata.branchingFactor = some count) :
    machine.guardedHash instruction count = .ok (machine.settled instruction) := by
  rw [← hashTop_eq machine instruction count harity, guardedHash]
  by_cases hdepth : machine.depth < count
  · have hshort : (machine.stack.take count).length ≠ count := by
      rw [List.length_take]
      exact ne_of_lt (lt_of_le_of_lt (Nat.min_le_right _ _) hdepth)
    simp only [hdepth, hshort, digestTop, ↓reduceIte]
    rfl
  · have hle : count ≤ machine.stack.length := Nat.le_of_not_lt hdepth
    have hsubtract : Fault.subtract machine.depth count = .ok (machine.stack.length - count) :=
      if_pos hle
    have hcut : Fault.cut machine.stack (machine.stack.length - count) =
        .ok (machine.stack.take count, machine.stack.drop count) := by
      rw [Fault.cut, if_pos (Nat.sub_le _ _), Nat.sub_sub_self hle]
    have hlong : (machine.stack.take count).length = count := by
      rw [List.length_take, Nat.min_eq_left hle]
    simp only [hdepth, hlong, digestTop, hsubtract, ↓reduceIte, Hasher.sumOf_eq, bind, Except.bind,
      hcut]
    cases instruction <;> rfl

theorem guardedExecute_eq {machine : Machine} (hsupplied : machine.setting.Supplied)
    (instruction : Instruction) :
    machine.guardedExecute instruction = .ok (machine.execute instruction) := by
  rw [guardedExecute]
  cases harity : instruction.arity? machine.metadata.branchingFactor with
  | none => rfl
  | some count =>
      rw [execute_eq hsupplied]
      exact guardedHash_eq machine harity

namespace Follows

variable {machine : Machine} {setting : Setting} {ops : List Op} {stack : List Bytes}

theorem guardedStep_eq (hfollows : machine.Follows setting ops stack) :
    machine.guardedStep = .ok machine.step := by
  rw [guardedStep, Machine.step]
  cases machine.pending with
  | nil => rfl
  | cons op rest =>
      apply guardedExecute_eq
      change machine.setting.Supplied
      exact hfollows.setting_eq ▸ hfollows.supplied

theorem guardedRunThrough_eq (hfollows : machine.Follows setting ops stack) :
    guardedRunThrough ops machine = .ok (runThrough ops machine) := by
  induction ops generalizing machine stack with
  | nil => rfl
  | cons op rest ih =>
      have hnext := hfollows.step
      have hip := hfollows.ip_step
      rw [guardedRunThrough, runThrough, hfollows.guardedStep_eq]
      rcases hstep : machine.step with ⟨cause | _, next⟩
      · have hsubtract : Fault.subtract next.ip 1 = .ok (next.ip - 1) := by
          apply if_pos
          rw [hstep] at hip
          exact hip ▸ Nat.succ_pos machine.ip
        simp only [bind, Except.bind, hsubtract]
        rfl
      · rw [hstep] at hnext
        exact ih hnext

theorem guardedCall_eq (hfollows : machine.Follows setting ops stack) (call : Call) :
    machine.guardedCall call = .ok (machine.call call) := by
  cases call with
  | step => exact hfollows.guardedStep_eq
  | run =>
      have hpending := hfollows.pending_eq
      rw [guardedCall, Machine.call, run, hpending]
      exact hfollows.guardedRunThrough_eq

theorem ofOp_of_step (hfollows : machine.Follows setting ops stack) {cause : Error}
    (hstep : machine.step.1 = .error cause) : cause.OfOp ∨ cause = .program .pastEnd := by
  cases ops with
  | nil =>
      rw [Machine.step, hfollows.pending_eq] at hstep
      cases hstep
      exact Or.inr rfl
  | cons op rest =>
      rw [hfollows.step_result] at hstep
      cases heval : setting.eval stack op.instruction with
      | ok after =>
          rw [heval] at hstep
          cases hstep
      | error other =>
          rw [heval] at hstep
          cases hstep
          exact Or.inl (Setting.ofOp_of_eval hfollows.supplied heval)

theorem ofOp_of_run (hfollows : machine.Follows setting ops stack) {cause : Error}
    (hrun : machine.run.1 = .error cause) : cause.OfOp := by
  have hleaves := leaves_runThrough hfollows
  rw [run, hfollows.pending_eq] at hrun
  rw [leaves, hrun] at hleaves
  exact Setting.ofOp_of_evalOps hfollows.supplied hleaves.symm

end Follows

/-- Whatever was called on a machine before, and whatever failed, the next call does not
fault.  A run fails only for a cause of an op, and a step also past the end. -/
theorem guardedCall_afterCalls {program : Program} {inputs : List Bytes} {machine : Machine}
    (hstart : start program inputs = .ok machine) (calls : List Call) :
    let current := machine.afterCalls calls
    (∀ call, current.guardedCall call = .ok (current.call call)) ∧
      (∀ cause, current.run.1 = .error cause → cause.OfOp) ∧
      (∀ cause, current.step.1 = .error cause →
        cause.OfOp ∨ cause = .program .pastEnd) := by
  intro current
  obtain ⟨_, _, _, hprogress⟩ := progress_of_start hstart
  have hfollows := (hprogress.afterCalls calls).follows
  refine ⟨?_, ?_, ?_⟩
  · intro call
    exact hfollows.guardedCall_eq call
  · intro cause hrun
    exact hfollows.ofOp_of_run hrun
  · intro cause hstep
    exact hfollows.ofOp_of_step hstep

/-- Ops that ask for more values than there are, up to the most that can be asked for. -/
def overdrawn : Program :=
  ⟨Metadata.ofFunction .sha256 1 0xffffffff,
    [Op.pushInput 0, Op.popHash 0xffffffffffffffff, Op.hashChildren, Op.peekHash 1]⟩

theorem guardedCall_overdrawn :
    ∃ machine, start overdrawn [[7]] = .ok machine ∧
      machine.run.1 = .error (.program (.stackUnderflow 18446744073709551615 1)) ∧
      (machine.afterCalls [.run]).guardedCall .run =
        .ok ((machine.afterCalls [.run]).call .run) ∧
      (machine.afterCalls [.run]).run.1 = .error (.program (.stackUnderflow 4294967295 1)) ∧
      (machine.afterCalls [.run, .run]).guardedCall .run =
        .ok (.ok (), machine.afterCalls [.run, .run, .run]) := by
  have hstart : start overdrawn [[7]] = .ok (initial overdrawn [[7]] .sha256 32) := rfl
  refine ⟨_, hstart, rfl, ?_, rfl, ?_⟩
  · exact (guardedCall_afterCalls hstart [.run]).1 .run
  · exact (guardedCall_afterCalls hstart [.run, .run]).1 .run

end Machine

end MerkleStack
