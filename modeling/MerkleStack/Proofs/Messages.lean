/-
What a message tells.  Every kind of cause has a message format of its own: a lead that no
message of another kind begins with, and fields, each with a text behind it that it cannot
run into.  So the kind and all fields can be read back, and the message that a run writes when
it fails tells the whole cause.
-/
import MerkleStack.Proofs.Diagnostics
import MerkleStack.Proofs.Listing

namespace MerkleStack

/-- What a field of a message holds. -/
inductive Field
  | word32
  | word64
  | count
  | bytes
  | function
  | text

namespace Field

abbrev Value : Field → Type
  | word32 => UInt32
  | word64 => UInt64
  | count => Nat
  | bytes => Bytes
  | function => HashFunction
  | text => String

/-- Numbers stand in a message in decimal, byte strings in hexadecimal, functions by their
name. -/
def print : (field : Field) → field.Value → String
  | word32, number => number.toNat.repr
  | word64, number => number.toNat.repr
  | count, number => number.repr
  | bytes, value => hex value
  | function, selected => selected.name
  | text, value => value

/-- The characters that a field can be printed in. -/
def kind : Field → Char → Bool
  | word32 | word64 | count => Char.isDigit
  | bytes => Char.isAlphanum
  | function => nameKind
  | text => fun _ => true

theorem consists_print (field : Field) (value : field.Value) :
    Consists field.kind (field.print value) := by
  cases field with
  | word32 => exact consists_repr _
  | word64 => exact consists_repr _
  | count => exact consists_repr _
  | bytes => exact consists_hex value
  | function => exact HashFunction.consists_name value
  | text => exact fun _ _ => rfl

theorem print_injective (field : Field) : Function.Injective field.print := by
  intro value other heq
  cases field with
  | word32 => exact eq_of_repr_toNat_eq heq
  | word64 => exact UInt64.toNat_inj.1 (Nat.repr_injective heq)
  | count => exact Nat.repr_injective heq
  | bytes => exact hex_injective heq
  | function => exact HashFunction.name_inj heq
  | text => exact heq

end Field

/-- A field of a message and the fixed text behind it. -/
structure Segment where
  field : Field
  behind : String

namespace Segment

def Values : List Segment → Type
  | [] => Unit
  | segment :: rest => segment.field.Value × Values rest

/-- The text of some fields in turn, each with what stands behind it. -/
def render : (segments : List Segment) → Values segments → String
  | [], _ => ""
  | segment :: rest, values =>
      segment.field.print values.1 ++ (segment.behind ++ render rest values.2)

/-- Whether it can be told where every field ends: behind it comes a character that it
cannot hold, or the end of the message. -/
def delimited : List Segment → Bool
  | [] => true
  | segment :: rest =>
      (match segment.behind.toList with
        | [] => rest.isEmpty
        | c :: _ => !segment.field.kind c) && delimited rest

variable {segment : Segment} {segments rest : List Segment}

theorem stops_of_delimited (hdelimited : delimited (segment :: rest) = true)
    (values : Values rest) :
    Stops segment.field.kind (segment.behind ++ render rest values) := by
  rw [delimited, Bool.and_eq_true] at hdelimited
  obtain ⟨hend, -⟩ := hdelimited
  rw [Stops, String.toList_append]
  split at hend
  · case h_1 hempty =>
      obtain rfl := List.isEmpty_iff.1 hend
      rw [hempty]
      rfl
  · case h_2 c behind hbehind =>
      rw [hbehind, List.cons_append, List.takeWhile_cons_of_neg]
      rwa [Bool.not_eq_true, ← Bool.not_eq_true']

/-- Fields that end where it can be told are read back from their text. -/
theorem render_injective (hdelimited : delimited segments = true) :
    Function.Injective (render segments) := by
  induction segments with
  | nil => exact fun _ _ _ => rfl
  | cons segment rest ih =>
      rintro ⟨value, values⟩ ⟨other, others⟩ heq
      have hrest : delimited rest = true := (Bool.and_eq_true_iff.1 hdelimited).2
      obtain ⟨hvalue, hbehind⟩ := eq_of_append_eq (segment.field.consists_print value)
        (segment.field.consists_print other) (stops_of_delimited hdelimited values)
        (stops_of_delimited hdelimited others) heq
      obtain rfl := segment.field.print_injective hvalue
      obtain rfl := ih hrest ((String.append_right_inj _).1 hbehind)
      rfl

end Segment

/-- A message format: what its messages begin with, and their fields in the order in which
they are printed. -/
structure MessageFormat where
  lead : String
  segments : List Segment
  delimited : Segment.delimited segments = true := by decide

def MessageFormat.print (format : MessageFormat) (values : Segment.Values format.segments) :
    String :=
  format.lead ++ Segment.render format.segments values

theorem MessageFormat.print_injective (format : MessageFormat) :
    Function.Injective format.print := by
  intro values others heq
  exact Segment.render_injective format.delimited ((String.append_right_inj _).1 heq)

namespace Error

/-- The kinds of causes, each of which has a message format of its own. -/
inductive Kind
  | inputCount
  | unknownFunction
  | lengthDeclared
  | lengthMissing
  | unknownOpcode
  | inputOutOfBounds
  | inputMissing
  | stackUnderflow
  | badBranchingFactor
  | finalStackSize
  | pastEnd
  | valueMismatch
  | encoding
  | hasherSpent
deriving DecidableEq

namespace Kind

def all : List Kind :=
  [inputCount, unknownFunction, lengthDeclared, lengthMissing, unknownOpcode, inputOutOfBounds,
    inputMissing, stackUnderflow, badBranchingFactor, finalStackSize, pastEnd, valueMismatch,
    encoding, hasherSpent]

theorem mem_all (kind : Kind) : kind ∈ all := by
  cases kind <;> decide

def format : Kind → MessageFormat
  | inputCount => {
      lead := "invalid input count: program expected "
      segments := [⟨.word32, ", got "⟩, ⟨.count, ""⟩] }
  | unknownFunction => {
      lead := "unknown hash function: "
      segments := [⟨.word32, ""⟩] }
  | lengthDeclared => {
      lead := "fixed-length hash function '"
      segments := [⟨.function, "' has non-zero output length "⟩, ⟨.word32, ""⟩] }
  | lengthMissing => {
      lead := "variable-length hash function '"
      segments := [⟨.function, "' has zero output length"⟩] }
  | unknownOpcode => {
      lead := "invalid program: unknown opcode "
      segments := [⟨.word32, ""⟩] }
  | inputOutOfBounds => {
      lead := "invalid program: input index out of bounds "
      segments := [⟨.word64, ", program's expected input count "⟩, ⟨.word32, ""⟩] }
  | inputMissing => {
      lead := "invalid invocation: program expected input at index "
      segments := [⟨.word64, ", invoked with "⟩, ⟨.count, " total inputs"⟩] }
  | stackUnderflow => {
      lead := "invalid program: stack underflow, expected at least "
      segments := [⟨.count, " values, found "⟩, ⟨.count, ""⟩] }
  | badBranchingFactor => {
      lead := "bad branching factor in metadata: "
      segments := [⟨.word32, ""⟩] }
  | finalStackSize => {
      lead := "invalid program: expected one output on stack, stack size: "
      segments := [⟨.count, ""⟩] }
  | pastEnd => {
      lead := "ip advanced past end of program"
      segments := [] }
  | valueMismatch => {
      lead := "value ("
      segments := [⟨.bytes, ") does not match input "⟩, ⟨.word64, " ("⟩, ⟨.bytes, ")"⟩] }
  | encoding => {
      lead := "encoding error: "
      segments := [⟨.text, ""⟩] }
  | hasherSpent => {
      lead := "OnceHash: cannot be used after calling sum, must be reset"
      segments := [] }

theorem lead_prefix_free :
    ∀ kind ∈ all, ∀ other ∈ all,
      kind.format.lead.toList <+: other.format.lead.toList → kind = other := by
  decide +kernel

theorem eq_of_print_eq {kind other : Kind} {values : Segment.Values kind.format.segments}
    {others : Segment.Values other.format.segments}
    (heq : kind.format.print values = other.format.print others) : kind = other := by
  have hlists := congrArg String.toList heq
  simp only [MessageFormat.print, String.toList_append] at hlists
  have hkind := List.prefix_append kind.format.lead.toList
    (Segment.render kind.format.segments values).toList
  rw [hlists] at hkind
  rcases List.prefix_or_prefix_of_prefix hkind (List.prefix_append _ _) with hle | hle
  · exact lead_prefix_free kind kind.mem_all other other.mem_all hle
  · exact (lead_prefix_free other other.mem_all kind kind.mem_all hle).symm

end Kind

/-- The cause of a kind with given fields. -/
def ofValues : (kind : Kind) → Segment.Values kind.format.segments → Error
  | .inputCount, (expected, actual, _) => .config (.inputCount expected actual)
  | .unknownFunction, (id, _) => .config (.unknownFunction id)
  | .lengthDeclared, (function, declared, _) => .config (.lengthDeclared function declared)
  | .lengthMissing, (function, _) => .config (.lengthMissing function)
  | .unknownOpcode, (opcode, _) => .program (.unknownOpcode opcode)
  | .inputOutOfBounds, (index, count, _) => .program (.inputOutOfBounds index count)
  | .inputMissing, (index, count, _) => .program (.inputMissing index count)
  | .stackUnderflow, (needed, found, _) => .program (.stackUnderflow needed found)
  | .badBranchingFactor, (factor, _) => .program (.badBranchingFactor factor)
  | .finalStackSize, (size, _) => .program (.finalStackSize size)
  | .pastEnd, _ => .program .pastEnd
  | .valueMismatch, (value, index, expected, _) => .valueMismatch index value expected
  | .encoding, (text, _) => .encoding text
  | .hasherSpent, _ => .hasherSpent

theorem exists_ofValues (cause : Error) : ∃ kind values, cause = ofValues kind values := by
  cases cause with
  | config cause =>
      cases cause with
      | inputCount expected actual => exact ⟨.inputCount, (expected, actual, ()), rfl⟩
      | unknownFunction id => exact ⟨.unknownFunction, (id, ()), rfl⟩
      | lengthDeclared function declared =>
          exact ⟨.lengthDeclared, (function, declared, ()), rfl⟩
      | lengthMissing function => exact ⟨.lengthMissing, (function, ()), rfl⟩
  | program cause =>
      cases cause with
      | unknownOpcode opcode => exact ⟨.unknownOpcode, (opcode, ()), rfl⟩
      | inputOutOfBounds index count => exact ⟨.inputOutOfBounds, (index, count, ()), rfl⟩
      | inputMissing index count => exact ⟨.inputMissing, (index, count, ()), rfl⟩
      | stackUnderflow needed found => exact ⟨.stackUnderflow, (needed, found, ()), rfl⟩
      | badBranchingFactor factor => exact ⟨.badBranchingFactor, (factor, ()), rfl⟩
      | finalStackSize size => exact ⟨.finalStackSize, (size, ()), rfl⟩
      | pastEnd => exact ⟨.pastEnd, (), rfl⟩
  | valueMismatch index value expected =>
      exact ⟨.valueMismatch, (value, index, expected, ()), rfl⟩
  | encoding text => exact ⟨.encoding, (text, ()), rfl⟩
  | hasherSpent => exact ⟨.hasherSpent, (), rfl⟩

/-- Every message is written in the format of its kind. -/
theorem message_ofValues (kind : Kind) (values : Segment.Values kind.format.segments) :
    (ofValues kind values).message = kind.format.print values := by
  rw [MessageFormat.print]
  cases kind <;> simp only [Kind.format, Segment.render, Field.print, ← String.append_assoc,
    String.append_empty] <;> rfl

theorem message_injective : Function.Injective message := by
  intro first second heq
  obtain ⟨kind, values, rfl⟩ := exists_ofValues first
  obtain ⟨other, others, rfl⟩ := exists_ofValues second
  rw [message_ofValues, message_ofValues] at heq
  obtain rfl := Kind.eq_of_print_eq heq
  rw [kind.format.print_injective heq]

end Error

namespace Machine

variable {machine : Machine} {ip : Nat} {cause : Error}

/-- What is told as a failure is what the run returns. -/
theorem result_of_failed_mem {ops : List Op} {log : List Event}
    (hmem : Event.failed ip cause ∈ (traceThrough ops machine log).2) :
    Event.failed ip cause ∈ log ∨ (runThrough ops machine).1 = .error cause := by
  induction ops generalizing machine log with
  | nil => exact Or.inl hmem
  | cons op rest ih =>
      cases hstep : machine.step.1 with
      | ok _ =>
          rw [traceThrough_cons_of_ok hstep] at hmem
          rw [runThrough_cons_of_ok hstep]
          rcases ih hmem with hlog | hresult
          · exact Or.inl (List.mem_of_ne_of_mem Event.noConfusion hlog)
          · exact Or.inr hresult
      | error found =>
          rw [traceThrough_cons_of_error hstep] at hmem
          rw [runThrough_cons_of_error hstep]
          rcases List.mem_cons.1 hmem with hfailed | hlog
          · cases hfailed
            exact Or.inr rfl
          · exact Or.inl (List.mem_of_ne_of_mem Event.noConfusion hlog)

theorem run_of_failed_mem (hmem : Event.failed ip cause ∈ machine.trace.2) :
    machine.run.1 = .error cause := by
  have hlog : Event.failed ip cause ∈ (traceThrough machine.pending machine []).2 :=
    List.mem_reverse.1 hmem
  exact (result_of_failed_mem hlog).resolve_left List.not_mem_nil

end Machine

theorem Event.eq_failed_of_line {event : Event} {place : String} {cause : Error}
    (hline : event.line =
      (.debug, "hash program failed", [("ip", place), ("error", cause.message)])) :
    ∃ ip, event = .failed ip cause := by
  cases event with
  | failed ip found =>
      simp only [line, fields, Prod.mk.injEq, List.cons.injEq, true_and, and_true] at hline
      obtain ⟨-, -, -, hmessage⟩ := hline
      exact ⟨ip, congrArg (failed ip) (Error.message_injective hmessage)⟩
  | constructed | step | verified => simp [line, message] at hline

/-- A message tells its cause with all fields: no two causes have the same message.  So
where a run writes that the program failed, the message that it writes tells the cause that
it returns. -/
theorem Error.message_tells_cause (cause : Error) :
    (∀ other : Error, other.message = cause.message → other = cause) ∧
      ∀ (machine : Machine) (place : String),
        (.debug, "hash program failed", [("ip", place), ("error", cause.message)]) ∈
            machine.trace.2.map Event.line →
          machine.run.1 = .error cause := by
  constructor
  · intro other heq
    exact message_injective heq
  · intro machine place hmem
    obtain ⟨event, hmem, hline⟩ := List.mem_map.1 hmem
    obtain ⟨ip, rfl⟩ := Event.eq_failed_of_line hline
    exact Machine.run_of_failed_mem hmem

/-- The message of an underflow, read in the log of a run. -/
theorem Error.message_tells_underflow :
    ∃ machine,
      Machine.start ⟨Metadata.ofFunction .sha256 1 0, [Op.pushInput 0, Op.popHash 2]⟩ [[7]] =
        .ok machine ∧
      (Level.debug, "hash program failed",
          [("ip", "1"), ("error",
            "invalid program: stack underflow, expected at least 2 values, found 1")]) ∈
        machine.trace.2.map Event.line ∧
      machine.run.1 = .error (.program (.stackUnderflow 2 1)) := by
  refine ⟨_, rfl, by decide +kernel, ?_⟩
  exact (message_tells_cause (.program (.stackUnderflow 2 1))).2 _ "1" (by decide +kernel)

end MerkleStack
