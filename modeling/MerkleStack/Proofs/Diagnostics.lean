/-
Diagnostics tell what happened.  A run leaves one event for every op that it carried out, in
order, with the depth of the stack before it, and one more if an op fails.  So the events of
a verification can be told from where the steps of its machine lead and from its result.
-/
import MerkleStack.Proofs.Faults
import MerkleStack.Proofs.Stepping
import MerkleStack.Trace

namespace MerkleStack

/-- What is written for an event: how detailed it is, its message and its named values. -/
abbrev Event.Line := Level × String × List (String × String)

def Event.line (event : Event) : Event.Line :=
  (event.level, event.message, event.fields)

namespace Machine

variable {machine : Machine} {cause : Error}

/-- Events of the steps that carry some ops out, of which all but the last succeed. -/
def stepEvents (machine : Machine) (ops : List Op) : List Event :=
  ops.mapIdx fun count op =>
    .step (machine.ip + count) op.opcode op.index (machine.steps count).depth

/-- The line that a machine which starts at the first op of its program writes before it
carries out an op. -/
def stepLine (machine : Machine) (ip : Nat) (op : Op) : Event.Line :=
  (.trace, "step",
    [("ip", ip.repr), ("opcode", op.opcode.toNat.repr), ("operand", op.index.toNat.repr),
      ("stack_depth", (machine.steps ip).depth.repr)])

theorem map_line_stepEvents (hip : machine.ip = 0) (ops : List Op) :
    (machine.stepEvents ops).map Event.line = ops.mapIdx machine.stepLine := by
  apply List.ext_getElem?
  intro ip
  rw [List.getElem?_map, stepEvents, List.getElem?_mapIdx, List.getElem?_mapIdx,
    Option.map_map, hip, Nat.zero_add]
  rfl

/-- Telling what happens does not change it. -/
theorem traceThrough_result (ops : List Op) (machine : Machine) (log : List Event) :
    (traceThrough ops machine log).1 = runThrough ops machine := by
  induction ops generalizing machine log with
  | nil => rfl
  | cons op rest ih =>
      rw [traceThrough, runThrough]
      rcases machine.step with ⟨cause | _, next⟩
      · rfl
      · exact ih next _

theorem traceThrough_cons_of_ok (hstep : machine.step.1 = .ok ()) (op : Op) (rest : List Op)
    (log : List Event) :
    traceThrough (op :: rest) machine log =
      traceThrough rest machine.step.2
        (.step machine.ip op.opcode op.index machine.depth :: log) := by
  rcases hmachine : machine.step with ⟨result, next⟩
  rw [hmachine] at hstep
  obtain rfl : result = .ok () := hstep
  rw [traceThrough, hmachine]

theorem traceThrough_cons_of_error (hstep : machine.step.1 = .error cause) (op : Op)
    (rest : List Op) (log : List Event) :
    (traceThrough (op :: rest) machine log).2 =
      .failed machine.ip cause ::
        .step machine.ip op.opcode op.index machine.depth :: log := by
  rcases hmachine : machine.step with ⟨result, next⟩
  rw [hmachine] at hstep
  obtain rfl : result = .error cause := hstep
  rw [traceThrough, hmachine]

namespace Follows

variable {setting : Setting} {stack : List Bytes} {op : Op} {ops rest : List Op}

theorem stepEvents_cons (hfollows : machine.Follows setting (op :: rest) stack)
    (carried : List Op) :
    machine.stepEvents (op :: carried) =
      .step machine.ip op.opcode op.index machine.depth ::
        machine.step.2.stepEvents carried := by
  rw [stepEvents, stepEvents, List.mapIdx_cons, hfollows.ip_step]
  simp only [Nat.add_right_comm]
  rfl

theorem events_of_failsAfter (hfollows : machine.Follows setting ops stack) {count : Nat}
    (hfails : machine.FailsAfter count cause) (log : List Event) :
    (traceThrough ops machine log).2 =
      .failed (machine.ip + count) cause ::
        ((machine.stepEvents (ops.take (count + 1))).reverse ++ log) := by
  induction ops generalizing machine stack count log with
  | nil => exact absurd hfails hfollows.not_failsAfter
  | cons op rest ih =>
      rw [List.take_succ_cons, hfollows.stepEvents_cons, List.reverse_cons, List.append_assoc]
      cases count with
      | zero => exact traceThrough_cons_of_error hfails.fails op rest log
      | succ count =>
          have hstep := hfails.step_ok
          have hnext := (hfollows.failsAfter_succ hstep).1 hfails
          rw [traceThrough_cons_of_ok hstep, ih hfollows.step hnext, hfollows.ip_step,
            Nat.add_assoc, Nat.add_comm 1]
          rfl

theorem events_of_ok (hfollows : machine.Follows setting ops stack)
    (hall : ∀ count < ops.length, (machine.steps count).step.1 = .ok ()) (log : List Event) :
    (traceThrough ops machine log).2 = (machine.stepEvents ops).reverse ++ log := by
  induction ops generalizing machine stack log with
  | nil => rfl
  | cons op rest ih =>
      have hstep : machine.step.1 = .ok () := hall 0 (Nat.succ_pos rest.length)
      have hrest : ∀ count < rest.length, (machine.step.2.steps count).step.1 = .ok () := by
        intro count hlt
        exact hall (count + 1) (Nat.succ_lt_succ hlt)
      rw [traceThrough_cons_of_ok hstep, ih hfollows.step hrest, hfollows.stepEvents_cons,
        List.reverse_cons, List.append_assoc]
      rfl

end Follows

/-- A run fails after some ops and says so in an event, or it succeeds with an event for
each op. -/
theorem Progress.trace_cases {program : Program} {setting : Setting}
    (hprogress : machine.Progress program setting) (hip : machine.ip = 0) :
    (∃ count cause, machine.FailsAfter count cause ∧ cause.OfOp ∧
      machine.run.1 = .error cause ∧
      machine.trace.2 =
        machine.stepEvents (program.ops.take (count + 1)) ++ [.failed count cause]) ∨
    (∀ count < program.ops.length, (machine.steps count).step.1 = .ok ()) ∧
      machine.run.1 = .ok () ∧ machine.trace.2 = machine.stepEvents program.ops := by
  have hfollows := hprogress.follows
  have hpending := hprogress.pending_eq
  rw [hip, List.drop_zero] at hfollows hpending
  have htrace : machine.trace.2 = (traceThrough program.ops machine []).2.reverse := by
    rw [trace, hpending]
  have hrun : machine.run = runThrough program.ops machine := by
    rw [run, hpending]
  rw [htrace, hrun]
  rcases hfollows.runThrough_cases with ⟨count, cause, hfails, hresult⟩ | ⟨hall, hresult⟩
  · have hop : cause.OfOp := by
      apply hfollows.ofOp_of_run
      rw [hrun, hresult]
    refine Or.inl ⟨count, cause, hfails, hop, ?_, ?_⟩
    · rw [hresult]
    · rw [hfollows.events_of_failsAfter hfails, hip]
      simp
  · refine Or.inr ⟨hall, ?_, ?_⟩
    · rw [hresult]
    · rw [hfollows.events_of_ok hall]
      simp

theorem trace_result (machine : Machine) : machine.trace.1 = machine.run :=
  traceThrough_result machine.pending machine []

end Machine

/-- Telling what happens does not change the result of a verification. -/
theorem verifyTraced_result (program : Program) (inputs : List Bytes) (expected : Bytes) :
    (verifyTraced program inputs expected).1 = verify program inputs expected := by
  rw [verifyTraced, verify]
  cases Machine.start program inputs with
  | error cause => rfl
  | ok machine =>
      simp only
      rw [← machine.trace_result]
      rcases machine.trace with ⟨⟨cause | _, final⟩, events⟩
      · rfl
      · simp only
        cases final.output <;> rfl

section Started

variable {program : Program} {inputs : List Bytes} {machine : Machine}

def Machine.opening (machine : Machine) (program : Program) (inputs : List Bytes) : Event :=
  .constructed machine.function machine.hasher.size inputs.length program.ops.length

/-- After a run that fails no event follows those of the run. -/
theorem verifyTraced_of_run_error (hstart : Machine.start program inputs = .ok machine)
    {cause : Error} (hrun : machine.run.1 = .error cause) (expected : Bytes) :
    verifyTraced program inputs expected =
      (.error cause, machine.opening program inputs :: machine.trace.2) := by
  have htrace : machine.trace = ((.error cause, machine.run.2), machine.trace.2) :=
    Prod.ext (machine.trace_result.trans (Prod.ext hrun rfl)) rfl
  rw [verifyTraced, hstart]
  simp only
  rw [htrace]
  rfl

/-- After a run that succeeds there is one more event if there is an output. -/
theorem verifyTraced_of_run_ok (hstart : Machine.start program inputs = .ok machine)
    (hrun : machine.run.1 = .ok ()) (expected : Bytes) :
    (∃ verdict, verifyTraced program inputs expected =
      (.ok verdict,
        machine.opening program inputs :: machine.trace.2 ++ [.verified verdict])) ∨
    ∃ size, verifyTraced program inputs expected =
      (.error (.program (.finalStackSize size)),
        machine.opening program inputs :: machine.trace.2) := by
  have htrace : machine.trace = ((.ok (), machine.run.2), machine.trace.2) :=
    Prod.ext (machine.trace_result.trans (Prod.ext hrun rfl)) rfl
  rw [verifyTraced, hstart]
  simp only
  rw [htrace]
  simp only
  cases houtput : machine.run.2.output with
  | ok output => exact Or.inl ⟨_, rfl⟩
  | error cause =>
      rw [Machine.output] at houtput
      split at houtput
      · cases houtput
      · cases houtput
        exact Or.inr ⟨_, rfl⟩

/-- What is written, told from the events. -/
theorem lines_of_verifyTraced_eq (hip : machine.ip = 0) {expected : Bytes}
    {told : Except Error Verdict} {executed : Nat} {closing : List Event}
    (htraced : verifyTraced program inputs expected =
      (told, machine.opening program inputs ::
        machine.stepEvents (program.ops.take executed) ++ closing)) :
    verify program inputs expected = told ∧
      (verifyTraced program inputs expected).2.map Event.line =
        (machine.opening program inputs).line ::
          (program.ops.take executed).mapIdx machine.stepLine ++ closing.map Event.line := by
  constructor
  · rw [← verifyTraced_result, htraced]
  · rw [htraced, List.map_append, List.map_cons, machine.map_line_stepEvents hip]

end Started

/-- The diagnostics of a verification tell exactly what happened.  A program whose metadata
do not fit leaves none.  Otherwise they begin with what was set up and go on with a line for
every op that was carried out, positions counted up, each with the number of values before
it.  The line after them names the op that failed and the cause that is returned, or the
verdict that is returned; there is none if there was no single value to judge. -/
theorem lines_of_verifyTraced (program : Program) (inputs : List Bytes) (expected : Bytes) :
    let result := verify program inputs expected
    let lines := (verifyTraced program inputs expected).2.map Event.line
    (verifyTraced program inputs expected).1 = result ∧
    ((∃ cause, Machine.start program inputs = .error cause ∧
        result = .error (.config cause) ∧ lines = []) ∨
      ∃ machine function size executed closing,
        Machine.start program inputs = .ok machine ∧
        program.metadata.function = .ok function ∧
        function.resolveSize program.metadata.outputLength = .ok size ∧
        lines =
          (.debug, "hash machine constructed",
            [("hash_function", function.name), ("output_size", size.repr),
              ("inputs", inputs.length.repr), ("ops", program.ops.length.repr)]) ::
            (program.ops.take executed).mapIdx machine.stepLine ++ closing ∧
        (machine.steps 0).depth = 0 ∧
        ((∃ ip cause, machine.FailsAfter ip cause ∧ cause.OfOp ∧ result = .error cause ∧
            executed = ip + 1 ∧
            closing = [(.debug, "hash program failed",
              [("ip", ip.repr), ("error", cause.message)])]) ∨
          (∀ ip < program.ops.length, (machine.steps ip).step.1 = .ok ()) ∧
            executed = program.ops.length ∧
            ((∃ verdict, result = .ok verdict ∧
                closing = [(.debug, "hash program verified",
                  [("ok", if verdict.accepted then "true" else "false"),
                    ("output", hex verdict.output)])]) ∨
              ∃ count, result = .error (.program (.finalStackSize count)) ∧
                closing = []))) := by
  intro result lines
  have hresult := verifyTraced_result program inputs expected
  refine ⟨hresult, ?_⟩
  cases hstart : Machine.start program inputs with
  | error cause =>
      have hrefused : verifyTraced program inputs expected = (.error (.config cause), []) := by
        rw [verifyTraced, hstart]
      refine Or.inl ⟨cause, rfl, ?_, ?_⟩
      · exact hresult.symm.trans (congrArg Prod.fst hrefused)
      · exact congrArg (fun traced => traced.2.map Event.line) hrefused
  | ok machine =>
      obtain ⟨hip, _, _, hprogress⟩ := Machine.progress_of_start hstart
      obtain ⟨function, size, _, hfunction, hsize, hinitial⟩ := Machine.start_eq_ok.1 hstart
      have hopening : (machine.opening program inputs).line =
          (.debug, "hash machine constructed",
            [("hash_function", function.name), ("output_size", size.repr),
              ("inputs", inputs.length.repr), ("ops", program.ops.length.repr)]) := by
        rw [← HashFunction.digestSize_of_resolveSize hsize, hinitial]
        rfl
      have hempty : (machine.steps 0).depth = 0 := by
        rw [hinitial]
        rfl
      rcases hprogress.trace_cases hip with
        ⟨ip, cause, hfails, hop, hrun, hevents⟩ | ⟨hall, hrun, hevents⟩
      · have hfailed := verifyTraced_of_run_error hstart hrun expected
        rw [hevents, ← List.cons_append] at hfailed
        obtain ⟨htell, hlines⟩ := lines_of_verifyTraced_eq hip hfailed
        rw [hopening] at hlines
        exact Or.inr ⟨machine, function, size, ip + 1, _, rfl, hfunction, hsize, hlines, hempty,
          Or.inl ⟨ip, cause, hfails, hop, htell, rfl, rfl⟩⟩
      · have htake : machine.trace.2 =
            machine.stepEvents (program.ops.take program.ops.length) := by
          rw [hevents, List.take_length]
        rcases verifyTraced_of_run_ok hstart hrun expected with
          ⟨verdict, hverified⟩ | ⟨count, hundecided⟩
        · rw [htake] at hverified
          obtain ⟨htell, hlines⟩ := lines_of_verifyTraced_eq hip hverified
          rw [hopening] at hlines
          exact Or.inr ⟨machine, function, size, program.ops.length, _, rfl, hfunction, hsize,
            hlines, hempty, Or.inr ⟨hall, rfl, Or.inl ⟨verdict, htell, rfl⟩⟩⟩
        · rw [htake, ← List.append_nil (machine.opening program inputs :: _)] at hundecided
          obtain ⟨htell, hlines⟩ := lines_of_verifyTraced_eq hip hundecided
          rw [hopening] at hlines
          exact Or.inr ⟨machine, function, size, program.ops.length, _, rfl, hfunction, hsize,
            hlines, hempty, Or.inr ⟨hall, rfl, Or.inr ⟨count, htell, rfl⟩⟩⟩

/-- A digest of two inputs is verified, whether or not it is the expected one, and written
out after one line for each of the ops. -/
theorem lines_of_pairDigest :
    let lines := fun expected =>
      (verifyTraced pairDigest [[7], [8]] expected).2.map Event.line
    let before := [
      (.debug, "hash machine constructed",
        [("hash_function", "SHA-256"), ("output_size", "32"), ("inputs", "2"), ("ops", "3")]),
      (.trace, "step",
        [("ip", "0"), ("opcode", "1"), ("operand", "0"), ("stack_depth", "0")]),
      (.trace, "step",
        [("ip", "1"), ("opcode", "1"), ("operand", "1"), ("stack_depth", "1")]),
      (.trace, "step",
        [("ip", "2"), ("opcode", "3"), ("operand", "0"), ("stack_depth", "2")])]
    let output := "c3aefc14ee1131201d705d4da641e4729e40fcd15a0d80015a9deba1164959f9"
    let digest := [195, 174, 252, 20, 238, 17, 49, 32, 29, 112, 93, 77, 166, 65, 228, 114, 158,
      64, 252, 209, 90, 13, 128, 1, 90, 157, 235, 161, 22, 73, 89, 249]
    lines digest = before ++
        [(.debug, "hash program verified", [("ok", "true"), ("output", output)])] ∧
      lines [8, 7] = before ++
        [(.debug, "hash program verified", [("ok", "false"), ("output", output)])] := by
  intro lines before output digest
  have hwritten : ∀ expected accepted,
      verify pairDigest [[7], [8]] expected = .ok ⟨accepted, digest⟩ →
      lines expected = before ++
        [(.debug, "hash program verified",
          [("ok", if accepted then "true" else "false"), ("output", output)])] := by
    intro expected accepted hverify
    have hok : Machine.start pairDigest [[7], [8]] =
        .ok (Machine.initial pairDigest [[7], [8]] .sha256 32) := rfl
    rcases lines_of_verifyTraced pairDigest [[7], [8]] expected with
      ⟨_, ⟨cause, hstart, _⟩ | ⟨machine, function, size, executed, closing, hstart, hfunction,
        hsize, hlines, _, hend⟩⟩
    · rw [hok] at hstart
      cases hstart
    · rw [hok] at hstart
      cases hstart
      obtain rfl : HashFunction.sha256 = function := Except.ok.inj hfunction
      obtain rfl : 32 = size := Except.ok.inj hsize
      rcases hend with ⟨_, cause, _, _, hresult, _⟩ |
        ⟨_, hexecuted, ⟨verdict, hresult, hclosing⟩ | ⟨_, hresult, _⟩⟩
      · rw [hverify] at hresult
        cases hresult
      · rw [hverify] at hresult
        cases hresult
        have hhex : hex digest = output := by decide +kernel
        have hsteps : (pairDigest.ops.take pairDigest.ops.length).mapIdx
            (Machine.initial pairDigest [[7], [8]] .sha256 32).stepLine = before.drop 1 := by
          decide +kernel
        rw [hexecuted, hclosing, hsteps, hhex] at hlines
        exact hlines
      · rw [hverify] at hresult
        cases hresult
  exact ⟨hwritten digest true (by decide +kernel), hwritten [8, 7] false (by decide +kernel)⟩

example :
    (verifyTraced ⟨Metadata.ofFunction .sha256 1 0, [Op.pushInput 0, Op.popHash 2]⟩
      [[7]] []).2.map Event.line =
    [(.debug, "hash machine constructed",
        [("hash_function", "SHA-256"), ("output_size", "32"), ("inputs", "1"), ("ops", "2")]),
      (.trace, "step",
        [("ip", "0"), ("opcode", "1"), ("operand", "0"), ("stack_depth", "0")]),
      (.trace, "step",
        [("ip", "1"), ("opcode", "4"), ("operand", "2"), ("stack_depth", "1")]),
      (.debug, "hash program failed",
        [("ip", "1"), ("error",
          "invalid program: stack underflow, expected at least 2 values, found 1")])] := by
  decide +kernel

end MerkleStack
