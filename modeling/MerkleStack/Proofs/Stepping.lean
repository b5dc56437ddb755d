/-
Steps and runs in any mixture.  A run is what comes of steps that are repeated up to the
first one that fails.  So after any calls a machine is where single steps lead, as many of
them as its position says: every op was carried out at most once and in order.  What stands
behind an op that fails has no part in the result of a verification.
-/
import MerkleStack.Proofs.Calls

namespace MerkleStack

/-- Phases in the order in which a machine goes through them. -/
def Phase.rank : Phase → Nat
  | .ready => 0
  | .running => 1
  | .halted => 2

/-- Ops that fail decide the result of every program that begins with them. -/
theorem verify_of_evalOps_error {metadata : Metadata} {inputs : List Bytes}
    {ops first : List Op} {setting : Setting} {cause : Error}
    (hsetting : (⟨metadata, ops⟩ : Program).setting inputs = .ok setting)
    (heval : setting.evalOps [] first = .error cause) (rest : List Op) (expected : Bytes) :
    verify ⟨metadata, first ++ rest⟩ inputs expected = .error cause := by
  have hwhole : (⟨metadata, first ++ rest⟩ : Program).setting inputs = .ok setting := hsetting
  rw [verify_of_setting hwhole, Setting.evalOps_append, heval]
  rfl

namespace Machine

variable {machine : Machine} {cause : Error}

/-- As many steps as `count` says succeed, and the op after them fails. -/
structure FailsAfter (machine : Machine) (count : Nat) (cause : Error) : Prop where
  lt_length : count < machine.pending.length
  before : ∀ earlier < count, (machine.steps earlier).step.1 = .ok ()
  fails : (machine.steps count).step.1 = .error cause

theorem FailsAfter.step_ok {count : Nat} (hfails : machine.FailsAfter (count + 1) cause) :
    machine.step.1 = .ok () :=
  hfails.before 0 (Nat.succ_pos count)

/-- Steps are repeated until one fails or no op is left; what the last one returned, and
the machine then. -/
inductive RunsTo : Machine → Except Error Unit → Machine → Prop
  | halted {machine : Machine} (hdone : machine.done = true) :
      RunsTo machine (.ok ()) machine
  | failed {machine : Machine} {cause : Error} (hmore : machine.done = false)
      (hstep : machine.step.1 = .error cause) :
      RunsTo machine (.error cause) machine.step.2
  | next {machine final : Machine} {result : Except Error Unit} (hmore : machine.done = false)
      (hstep : machine.step.1 = .ok ()) (hrest : RunsTo machine.step.2 result final) :
      RunsTo machine result final

theorem runThrough_cons_of_ok (hstep : machine.step.1 = .ok ()) (op : Op) (rest : List Op) :
    runThrough (op :: rest) machine = runThrough rest machine.step.2 := by
  rcases hmachine : machine.step with ⟨result, next⟩
  rw [hmachine] at hstep
  obtain rfl : result = .ok () := hstep
  rw [runThrough, hmachine]

theorem runThrough_cons_of_error (hstep : machine.step.1 = .error cause) (op : Op)
    (rest : List Op) : runThrough (op :: rest) machine = (.error cause, machine.step.2) := by
  rcases hmachine : machine.step with ⟨result, next⟩
  rw [hmachine] at hstep
  obtain rfl : result = .error cause := hstep
  rw [runThrough, hmachine]

namespace Follows

variable {setting : Setting} {stack : List Bytes} {op : Op} {ops rest : List Op}

theorem done_eq (hfollows : machine.Follows setting ops stack) :
    machine.done = ops.isEmpty := by
  rw [done, hfollows.pending_eq]

theorem not_failsAfter (hfollows : machine.Follows setting [] stack) {count : Nat} :
    ¬ machine.FailsAfter count cause := by
  intro hfails
  have hlt := hfails.lt_length
  rw [hfollows.pending_eq] at hlt
  exact absurd hlt (Nat.not_lt_zero count)

theorem failsAfter_zero (hfollows : machine.Follows setting (op :: rest) stack)
    (hstep : machine.step.1 = .error cause) : machine.FailsAfter 0 cause := by
  refine ⟨?_, ?_, hstep⟩
  · rw [hfollows.pending_eq]
    exact Nat.succ_pos rest.length
  · intro earlier hlt
    exact absurd hlt (Nat.not_lt_zero earlier)

/-- One step on, one step less is left until the failure. -/
theorem failsAfter_succ (hfollows : machine.Follows setting (op :: rest) stack)
    (hstep : machine.step.1 = .ok ()) {count : Nat} :
    machine.FailsAfter (count + 1) cause ↔ machine.step.2.FailsAfter count cause := by
  have hlength : machine.pending.length = machine.step.2.pending.length + 1 := by
    rw [hfollows.pending_eq, hfollows.step.pending_eq, List.length_cons]
  constructor
  · intro hfails
    refine ⟨?_, ?_, hfails.fails⟩
    · have := hfails.lt_length
      omega
    · intro earlier hlt
      exact hfails.before (earlier + 1) (Nat.succ_lt_succ hlt)
  · intro hfails
    refine ⟨?_, ?_, hfails.fails⟩
    · have := hfails.lt_length
      omega
    · intro earlier hlt
      cases earlier with
      | zero => exact hstep
      | succ earlier => exact hfails.before earlier (Nat.lt_of_succ_lt_succ hlt)

/-- A run stops right after the first op that fails, or it gets to the end. -/
theorem runThrough_cases (hfollows : machine.Follows setting ops stack) :
    (∃ count cause, machine.FailsAfter count cause ∧
      runThrough ops machine = (.error cause, machine.steps (count + 1))) ∨
    (∀ count < ops.length, (machine.steps count).step.1 = .ok ()) ∧
      runThrough ops machine = (.ok (), machine.steps ops.length) := by
  induction ops generalizing machine stack with
  | nil =>
      refine Or.inr ⟨?_, rfl⟩
      intro count hlt
      exact absurd hlt (Nat.not_lt_zero count)
  | cons op rest ih =>
      cases hstep : machine.step.1 with
      | error cause =>
          exact Or.inl ⟨0, cause, hfollows.failsAfter_zero hstep,
            runThrough_cons_of_error hstep op rest⟩
      | ok done =>
          rw [runThrough_cons_of_ok hstep]
          rcases ih hfollows.step with ⟨count, cause, hfails, hrun⟩ | ⟨hall, hrun⟩
          · exact Or.inl ⟨count + 1, cause, (hfollows.failsAfter_succ hstep).2 hfails, hrun⟩
          · refine Or.inr ⟨?_, hrun⟩
            intro count hlt
            cases count with
            | zero => exact hstep
            | succ count => exact hall count (Nat.lt_of_succ_lt_succ hlt)

/-- The loop comes to an end, with what a run gives. -/
theorem runsTo_runThrough (hfollows : machine.Follows setting ops stack) :
    machine.RunsTo (runThrough ops machine).1 (runThrough ops machine).2 := by
  induction ops generalizing machine stack with
  | nil => exact .halted hfollows.done_eq
  | cons op rest ih =>
      cases hstep : machine.step.1 with
      | error cause =>
          rw [runThrough_cons_of_error hstep]
          exact .failed hfollows.done_eq hstep
      | ok done =>
          rw [runThrough_cons_of_ok hstep]
          exact .next hfollows.done_eq hstep (ih hfollows.step)

/-- What an op evaluates to when the step that carries it out fails. -/
theorem eval_of_step_error (hfollows : machine.Follows setting (op :: rest) stack)
    (hstep : machine.step.1 = .error cause) :
    setting.eval stack op.instruction = .error cause := by
  rw [hfollows.step_result] at hstep
  cases heval : setting.eval stack op.instruction with
  | error other =>
      rw [heval] at hstep
      cases hstep
      rfl
  | ok after =>
      rw [heval] at hstep
      cases hstep

/-- What an op evaluates to when the step that carries it out succeeds. -/
theorem eval_of_step_ok (hfollows : machine.Follows setting (op :: rest) stack)
    (hstep : machine.step.1 = .ok ()) :
    setting.eval stack op.instruction = .ok machine.step.2.stack := by
  rw [hfollows.step_result] at hstep
  cases heval : setting.eval stack op.instruction with
  | error other =>
      rw [heval] at hstep
      cases hstep
  | ok after => rw [hfollows.step.stack_eq, Setting.settle_of_ok heval]

/-- A failure is found by evaluating the ops up to the one that fails. -/
theorem evalOps_of_failsAfter (hfollows : machine.Follows setting ops stack) {count : Nat}
    (hfails : machine.FailsAfter count cause) :
    setting.evalOps stack (ops.take (count + 1)) = .error cause := by
  induction ops generalizing machine stack count with
  | nil => exact absurd hfails hfollows.not_failsAfter
  | cons op rest ih =>
      rw [List.take_succ_cons]
      cases count with
      | zero =>
          exact Setting.evalOps_cons_of_error (hfollows.eval_of_step_error hfails.fails) _
      | succ count =>
          have hstep := hfails.step_ok
          have heval := hfollows.eval_of_step_ok hstep
          have hnext := hfollows.step
          rw [Setting.settle_of_ok heval] at hnext
          rw [Setting.evalOps_cons_of_ok heval]
          exact ih hnext ((hfollows.failsAfter_succ hstep).1 hfails)

end Follows

/-- The loop can end in one way only. -/
theorem RunsTo.unique {first second : Machine} {result other : Except Error Unit}
    (hfirst : machine.RunsTo result first) (hsecond : machine.RunsTo other second) :
    result = other ∧ first = second := by
  induction hfirst with
  | halted hdone =>
      cases hsecond with
      | halted _ => exact ⟨rfl, rfl⟩
      | failed hmore _ => exact absurd (hdone.symm.trans hmore) (by decide)
      | next hmore _ _ => exact absurd (hdone.symm.trans hmore) (by decide)
  | failed hmore hstep =>
      cases hsecond with
      | halted hdone => exact absurd (hdone.symm.trans hmore) (by decide)
      | failed _ hother =>
          cases hstep.symm.trans hother
          exact ⟨rfl, rfl⟩
      | next _ hother _ => cases hstep.symm.trans hother
  | next hmore hstep _ ih =>
      cases hsecond with
      | halted hdone => exact absurd (hdone.symm.trans hmore) (by decide)
      | failed _ hother => cases hstep.symm.trans hother
      | next _ _ hrest => exact ih hrest

namespace Progress

variable {program : Program} {setting : Setting}

theorem length_pending (hprogress : machine.Progress program setting) :
    machine.pending.length = program.ops.length - machine.ip := by
  rw [hprogress.pending_eq, List.length_drop]

theorem runsTo_iff (hprogress : machine.Progress program setting)
    (result : Except Error Unit) (final : Machine) :
    machine.RunsTo result final ↔ machine.run = (result, final) := by
  have hruns : machine.RunsTo machine.run.1 machine.run.2 := by
    have hfollows := hprogress.follows
    rw [← hprogress.pending_eq] at hfollows
    exact hfollows.runsTo_runThrough
  constructor
  · intro hresult
    obtain ⟨hfst, hsnd⟩ := hruns.unique hresult
    exact Prod.ext hfst hsnd
  · intro hrun
    rw [hrun] at hruns
    exact hruns

theorem run_cases (hprogress : machine.Progress program setting) :
    (∃ count cause, machine.FailsAfter count cause ∧
      machine.run = (.error cause, machine.steps (count + 1)) ∧
      machine.run.2.ip = machine.ip + count + 1) ∨
    (∀ count, machine.ip + count < program.ops.length →
        (machine.steps count).step.1 = .ok ()) ∧
      machine.run = (.ok (), machine.steps (program.ops.length - machine.ip)) ∧
      machine.run.2.ip = program.ops.length := by
  have hip := hprogress.ip_le
  have hlength := hprogress.length_pending
  have hfollows := hprogress.follows
  rw [← hprogress.pending_eq] at hfollows
  rcases hfollows.runThrough_cases with ⟨count, cause, hfails, hrun⟩ | ⟨hall, hrun⟩
  · refine Or.inl ⟨count, cause, hfails, hrun, ?_⟩
    have hlt := hfails.lt_length
    rw [run, hrun, hprogress.ip_steps]
    omega
  · rw [hlength] at hrun
    refine Or.inr ⟨?_, hrun, ?_⟩
    · intro count hlt
      exact hall count (by omega)
    · rw [run, hrun, hprogress.ip_steps]
      omega

theorem phase_eq (hprogress : machine.Progress program setting) :
    machine.phase =
      if machine.ip = program.ops.length then .halted
      else if machine.ip = 0 then .ready
      else .running := by
  have hip := hprogress.ip_le
  have hdone : machine.done = true ↔ machine.ip = program.ops.length := by
    rw [done, List.isEmpty_iff, hprogress.pending_eq, List.drop_eq_nil_iff]
    omega
  simp only [phase, hdone]

/-- Phases do not go back as long as positions do not. -/
theorem rank_le {later : Machine} (hprogress : machine.Progress program setting)
    (hlater : later.Progress program setting) (hip : machine.ip ≤ later.ip) :
    machine.phase.rank ≤ later.phase.rank := by
  have hend := hlater.ip_le
  rw [hprogress.phase_eq, hlater.phase_eq]
  grind [Phase.rank]

theorem ip_le_afterCalls (hprogress : machine.Progress program setting) (calls : List Call) :
    machine.ip ≤ (machine.afterCalls calls).ip := by
  have hip := hprogress.ip_le
  obtain ⟨count, hcount⟩ := exists_steps_eq_afterCalls machine calls
  rw [hcount, hprogress.ip_steps]
  omega

/-- Steps past the end lead nowhere. -/
theorem steps_of_le (hprogress : machine.Progress program setting) {count : Nat}
    (hend : program.ops.length ≤ machine.ip + count) (more : Nat) :
    machine.steps (count + more) = machine.steps count := by
  have hreached := hprogress.steps count
  have hip : program.ops.length ≤ (machine.steps count).ip := by
    rw [hprogress.ip_steps]
    omega
  rw [steps_add]
  induction more with
  | zero => rfl
  | succ more ih => rw [steps_succ, ih, hreached.step_of_le hip]

end Progress

/-- Where any calls lead is where single steps lead. -/
theorem afterCalls_eq_steps_ip {program : Program} {setting : Setting}
    (hprogress : machine.Progress program setting) (hip : machine.ip = 0) (calls : List Call) :
    machine.afterCalls calls = machine.steps (machine.afterCalls calls).ip := by
  obtain ⟨count, hcount⟩ := exists_steps_eq_afterCalls machine calls
  rw [hcount, hprogress.ip_steps, hip, Nat.zero_add]
  rcases Nat.le_total count program.ops.length with hle | hle
  · rw [Nat.min_eq_left hle]
  · obtain ⟨more, rfl⟩ := Nat.le.dest hle
    rw [Nat.min_eq_right hle]
    exact hprogress.steps_of_le (Nat.le_add_left _ _) more

/-- Steps and runs agree in any mixture, also after some of them failed.  After any calls a
machine is where single steps lead, as many as its position says, and positions and phases
do not go back.  The next step carries out the op at the position and goes on by one, or
changes nothing at the end; a run repeats steps and stops right after the first op that
fails.  If a program fails, the ops behind the failing one have no part in the result. -/
theorem stepwise_afterCalls {program : Program} {inputs : List Bytes} {machine : Machine}
    (hstart : start program inputs = .ok machine) (calls : List Call) :
    let current := machine.afterCalls calls
    let length := program.ops.length
    (current.ip ≤ length ∧ current = machine.steps current.ip) ∧
    (∀ more, current.ip ≤ (current.afterCalls more).ip ∧
      current.phase.rank ≤ (current.afterCalls more).phase.rank) ∧
    (∀ hlt : current.ip < length,
      current.step =
          (current.past (program.ops.drop (current.ip + 1))).execute
            program.ops[current.ip].instruction ∧
        current.step.2.ip = current.ip + 1) ∧
    (current.ip = length → current.step = (.error (.program .pastEnd), current)) ∧
    (∀ result final, current.RunsTo result final ↔ current.run = (result, final)) ∧
    ((∃ count cause, current.FailsAfter count cause ∧
        current.run = (.error cause, current.steps (count + 1)) ∧
        current.run.2.ip = current.ip + count + 1) ∨
      (∀ count, current.ip + count < length → (current.steps count).step.1 = .ok ()) ∧
        current.run = (.ok (), current.steps (length - current.ip)) ∧
        current.run.2.ip = length) ∧
    current.phase =
      (if current.ip = length then .halted else if current.ip = 0 then .ready else .running) ∧
    ∀ count cause, machine.FailsAfter count cause → ∀ others expected,
      verify program inputs expected = .error cause ∧
        verify ⟨program.metadata, program.ops.take (count + 1) ++ others⟩ inputs expected =
          .error cause := by
  intro current length
  obtain ⟨hip, _, hsetting, hprogress⟩ := progress_of_start hstart
  have hcurrent : current.Progress program machine.setting := hprogress.afterCalls calls
  refine ⟨⟨hcurrent.ip_le, afterCalls_eq_steps_ip hprogress hip calls⟩, ?_, ?_, ?_,
    hcurrent.runsTo_iff, hcurrent.run_cases, hcurrent.phase_eq, ?_⟩
  · intro more
    have hle := hcurrent.ip_le_afterCalls more
    exact ⟨hle, hcurrent.rank_le (hcurrent.afterCalls more) hle⟩
  · intro hlt
    have hnext : current.step.2.ip = current.ip + 1 := by
      rw [hcurrent.ip_step]
      exact Nat.min_eq_left hlt
    refine ⟨?_, hnext⟩
    rw [step, hcurrent.pending_eq, List.drop_eq_getElem_cons hlt]
    rfl
  · intro hend
    exact hcurrent.step_of_le (Nat.le_of_eq hend.symm)
  · intro count cause hfails others expected
    have hfollows := hprogress.follows
    rw [hip, List.drop_zero, hprogress.stack_eq, hip] at hfollows
    have hdecides := verify_of_evalOps_error hsetting (hfollows.evalOps_of_failsAfter hfails)
    have hwhole := hdecides (program.ops.drop (count + 1)) expected
    rw [List.take_append_drop] at hwhole
    exact ⟨hwhole, hdecides others expected⟩

/-- A step that succeeds and a run that fails, with an op left that can be run, and other
ops in place of that one. -/
theorem stepwise_afterCalls_interrupted :
    let program : Program :=
      ⟨Metadata.ofFunction .sha256 1 0, [Op.pushInput 0, Op.hashChildren, Op.popHash 1]⟩
    ∃ machine, start program [[7]] = .ok machine ∧
      machine.FailsAfter 1 (.program (.badBranchingFactor 0)) ∧
      (machine.afterCalls [.step, .run]).ip = 2 ∧
      machine.afterCalls [.step, .run] = machine.steps 2 ∧
      (machine.afterCalls [.step, .run]).RunsTo (.ok ()) (machine.afterCalls [.step, .run, .run]) ∧
      (machine.afterCalls [.step, .run]).phase = .running ∧
      (machine.afterCalls [.step, .run, .run]).phase = .halted ∧
      verify ⟨program.metadata, program.ops.take 2 ++ [Op.matchInput 9]⟩ [[7]] [] =
        .error (.program (.badBranchingFactor 0)) := by
  intro program
  have hstart : start program [[7]] = .ok (initial program [[7]] .sha256 32) := rfl
  have hfails : (initial program [[7]] .sha256 32).FailsAfter 1
      (.program (.badBranchingFactor 0)) := by
    refine ⟨by decide, ?_, rfl⟩
    intro earlier hlt
    obtain rfl : earlier = 0 := Nat.lt_one_iff.1 hlt
    rfl
  obtain ⟨⟨_, hsteps⟩, _, _, _, hruns, _, _, hverify⟩ :=
    stepwise_afterCalls hstart [.step, .run]
  refine ⟨_, hstart, hfails, rfl, hsteps, (hruns _ _).2 rfl, rfl, rfl, ?_⟩
  exact (hverify 1 _ hfails [Op.matchInput 9] []).2

end Machine

end MerkleStack
