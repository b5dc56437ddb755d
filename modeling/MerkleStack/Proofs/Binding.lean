/-
Outputs bind the inputs that are pushed.  Two runs of one program stay aligned: values
in the same place differ in length one way only, so joining them before they are hashed
loses no difference.  A difference can only get lost in a digest, and then the hash
function collides at that op.
-/
import Mathlib.Data.List.Forall2
import MerkleStack.Proofs.DigestLength
import MerkleStack.Proofs.Refinement

namespace MerkleStack

/-- Values in pairs, of which the second one is never the shorter. -/
def Aligned (left right : List Bytes) : Prop :=
  List.Forall₂ (fun first second => first.length ≤ second.length) left right

namespace Aligned

variable {left right : List Bytes}

theorem length_flatten_le (haligned : Aligned left right) :
    left.flatten.length ≤ right.flatten.length := by
  induction haligned with
  | nil => rfl
  | cons hfirst _ ih =>
      rw [List.flatten_cons, List.flatten_cons, List.length_append, List.length_append]
      exact Nat.add_le_add hfirst ih

/-- Joining aligned values loses nothing: if a pair differed in length, no other pair
could make up for it. -/
theorem eq_of_flatten_eq (haligned : Aligned left right)
    (hflatten : left.flatten = right.flatten) : left = right := by
  induction haligned with
  | nil => rfl
  | cons hfirst hrest ih =>
      rw [List.flatten_cons, List.flatten_cons] at hflatten
      have hle := length_flatten_le hrest
      have hlength := congrArg List.length hflatten
      rw [List.length_append, List.length_append] at hlength
      obtain ⟨hvalue, hvalues⟩ := List.append_inj hflatten (by omega)
      rw [hvalue, ih hvalues]

theorem length_le {index : Nat} {first second : Bytes} (haligned : Aligned left right)
    (hleft : left[index]? = some first) (hright : right[index]? = some second) :
    first.length ≤ second.length := by
  induction haligned generalizing index with
  | nil => cases hleft
  | cons hfirst _ ih =>
      cases index with
      | zero =>
          cases hleft
          cases hright
          exact hfirst
      | succ index => exact ih hleft hright

theorem kept (haligned : Aligned left right) (instruction : Instruction) (count : Nat) :
    Aligned (instruction.kept count left) (instruction.kept count right) := by
  cases instruction with
  | peekHash _ => exact haligned
  | _ => exact List.forall₂_drop count haligned

theorem of_length_eq (hlengths : left.map List.length = right.map List.length) :
    Aligned left right := by
  have hequal : List.Forall₂ Eq (left.map List.length) (right.map List.length) := by
    rw [List.forall₂_eq_eq_eq]
    exact hlengths
  rw [List.forall₂_map_left_iff, List.forall₂_map_right_iff] at hequal
  exact hequal.imp fun _ _ hlength => Nat.le_of_eq hlength

theorem of_eq_except_of_le {index : Nat} (hlength : left.length = right.length)
    (hother : ∀ other, other ≠ index → left[other]? = right[other]?)
    (hle : (left.getD index []).length ≤ (right.getD index []).length) :
    Aligned left right := by
  rw [Aligned, List.forall₂_iff_get]
  refine ⟨hlength, ?_⟩
  intro other hleft hright
  by_cases hindex : other = index
  · subst hindex
    simpa [hleft, hright] using hle
  · have hequal := hother other hindex
    simp only [List.getElem?_eq_getElem hleft, List.getElem?_eq_getElem hright] at hequal
    exact Nat.le_of_eq (congrArg List.length (Option.some.inj hequal))

/-- Values that differ at one index only are aligned one way or the other. -/
theorem of_eq_except {index : Nat} (hlength : left.length = right.length)
    (hother : ∀ other, other ≠ index → left[other]? = right[other]?) :
    Aligned left right ∨ Aligned right left := by
  have hsymm : ∀ other, other ≠ index → right[other]? = left[other]? := by
    intro other hne
    exact (hother other hne).symm
  rcases Nat.le_total (left.getD index []).length (right.getD index []).length with hle | hle
  · exact Or.inl (of_eq_except_of_le hlength hother hle)
  · exact Or.inr (of_eq_except_of_le hlength.symm hsymm hle)

end Aligned

theorem Instruction.eq_of_kept_eq {instruction : Instruction} {count : Nat}
    {left right : List Bytes} (htop : left.take count = right.take count)
    (hkept : instruction.kept count left = instruction.kept count right) :
    left = right := by
  cases instruction with
  | peekHash _ => exact hkept
  | _ =>
      rw [← List.take_append_drop count left, htop]
      change left.drop count = right.drop count at hkept
      rw [hkept, List.take_append_drop]

namespace Setting

def withInputs (setting : Setting) (inputs : List Bytes) : Setting :=
  { setting with inputs }

variable {setting : Setting} {others : List Bytes} {left right : List Bytes}

/-- An instruction that hashes two different messages to one digest. -/
def Collides (setting : Setting) (instruction : Instruction) (left right : List Bytes) : Prop :=
  ∃ values others,
    instruction.operands? setting.branchingFactor left = some values ∧
    instruction.operands? setting.branchingFactor right = some others ∧
    values.flatten ≠ others.flatten ∧
    setting.digest values.flatten = setting.digest others.flatten

theorem eval_hash_aligned {instruction : Instruction} {count : Nat} {left' right' : List Bytes}
    (hsize : ∀ first second, (setting.digest first).length = (setting.digest second).length)
    (haligned : Aligned left right)
    (harity : instruction.arity? setting.branchingFactor = some count)
    (hleft : setting.eval left instruction = .ok left')
    (hright : (setting.withInputs others).eval right instruction = .ok right') :
    Aligned left' right' ∧
      (left' = right' → left = right ∨ setting.Collides instruction left right) := by
  obtain ⟨hvalues, rfl⟩ := operands?_of_eval setting harity hleft
  obtain ⟨hothers, rfl⟩ := operands?_of_eval (setting.withInputs others) harity hright
  constructor
  · exact List.Forall₂.cons (Nat.le_of_eq (hsize _ _)) (haligned.kept instruction count)
  · intro hafter
    obtain ⟨hdigest, hkept⟩ := List.cons.inj hafter
    by_cases hmessage : (left.take count).flatten = (right.take count).flatten
    · have htop := Aligned.eq_of_flatten_eq (List.forall₂_take count haligned) hmessage
      exact Or.inl (Instruction.eq_of_kept_eq htop hkept)
    · exact Or.inr ⟨_, _, hvalues, hothers, hmessage, hdigest⟩

theorem eval_pushInput_aligned {index : UInt64} {left' right' : List Bytes}
    (hinputs : Aligned setting.inputs others) (haligned : Aligned left right)
    (hleft : setting.eval left (.pushInput index) = .ok left')
    (hright : (setting.withInputs others).eval right (.pushInput index) = .ok right') :
    Aligned left' right' ∧
      (left' = right' →
        left = right ∧ setting.inputs[index.toNat]? = others[index.toNat]?) := by
  obtain ⟨first, hfirst, rfl⟩ := pushInput_of_eval setting hleft
  obtain ⟨second, hsecond, rfl⟩ := pushInput_of_eval (setting.withInputs others) hright
  change others[index.toNat]? = some second at hsecond
  constructor
  · exact List.Forall₂.cons (hinputs.length_le hfirst hsecond) haligned
  · intro hafter
    obtain ⟨hvalue, hstack⟩ := List.cons.inj hafter
    exact ⟨hstack, by rw [hfirst, hsecond, hvalue]⟩

/-- Aligned stacks stay aligned.  They differ if they did before, or if an input was
pushed that differs, unless the hash collides. -/
theorem eval_aligned {instruction : Instruction} {left' right' : List Bytes}
    (hsize : ∀ first second, (setting.digest first).length = (setting.digest second).length)
    (hinputs : Aligned setting.inputs others)
    (hmatch : ∀ index, instruction ≠ .matchInput index)
    (haligned : Aligned left right)
    (hleft : setting.eval left instruction = .ok left')
    (hright : (setting.withInputs others).eval right instruction = .ok right') :
    Aligned left' right' ∧
      (left' = right' →
        (left = right ∧ ∀ index, instruction = .pushInput index →
          setting.inputs[index.toNat]? = others[index.toNat]?) ∨
        setting.Collides instruction left right) := by
  rcases eval_eq_ok.1 hleft with ⟨count, harity, _⟩ | ⟨index, _, rfl, _⟩ |
    ⟨payload, rfl, rfl⟩ | ⟨index, _, rfl, _⟩
  · obtain ⟨hafter, hequal⟩ := eval_hash_aligned hsize haligned harity hleft hright
    refine ⟨hafter, ?_⟩
    intro hsame
    rcases hequal hsame with hstack | hcollides
    · refine Or.inl ⟨hstack, ?_⟩
      rintro index rfl
      cases harity
    · exact Or.inr hcollides
  · obtain ⟨hafter, hequal⟩ := eval_pushInput_aligned hinputs haligned hleft hright
    refine ⟨hafter, ?_⟩
    intro hsame
    refine Or.inl ⟨(hequal hsame).1, ?_⟩
    rintro _ ⟨⟩
    exact (hequal hsame).2
  · cases hright
    refine ⟨List.Forall₂.cons (Nat.le_refl _) haligned, ?_⟩
    intro hsame
    refine Or.inl ⟨(List.cons.inj hsame).2, ?_⟩
    rintro _ ⟨⟩
  · exact absurd rfl (hmatch index)

/-- Two runs from aligned stacks to one stack pushed the same inputs on the same stack,
or the hash collides at one of their ops. -/
theorem evalOps_aligned {ops : List Op} {final : List Bytes}
    (hsize : ∀ first second, (setting.digest first).length = (setting.digest second).length)
    (hinputs : Aligned setting.inputs others)
    (hmatch : ∀ op ∈ ops, ∀ index, op.instruction ≠ .matchInput index)
    (haligned : Aligned left right)
    (hleft : setting.evalOps left ops = .ok final)
    (hright : (setting.withInputs others).evalOps right ops = .ok final) :
    (left = right ∧ ∀ op ∈ ops, ∀ index, op.instruction = .pushInput index →
        setting.inputs[index.toNat]? = others[index.toNat]?) ∨
      ∃ before op after left' right', ops = before ++ op :: after ∧
        setting.evalOps left before = .ok left' ∧
        (setting.withInputs others).evalOps right before = .ok right' ∧
        setting.Collides op.instruction left' right' := by
  -- Alignment goes from the first op to the last, equality of the stacks the other way.
  induction ops generalizing left right with
  | nil =>
      cases hleft
      cases hright
      refine Or.inl ⟨rfl, ?_⟩
      intro op hmem
      exact absurd hmem List.not_mem_nil
  | cons op rest ih =>
      obtain ⟨next, hfirst, hleft⟩ := evalOps_cons_eq_ok.1 hleft
      obtain ⟨next', hsecond, hright⟩ := evalOps_cons_eq_ok.1 hright
      obtain ⟨hnext, hequal⟩ := eval_aligned hsize hinputs (hmatch op List.mem_cons_self)
        haligned hfirst hsecond
      have hmatch : ∀ op ∈ rest, ∀ index, op.instruction ≠ .matchInput index := by
        intro other hmem
        exact hmatch other (List.mem_cons_of_mem op hmem)
      rcases ih hmatch hnext hleft hright with ⟨hstack, hpushes⟩ |
        ⟨before, other, after, left', right', rfl, hbefore, hbefore', hcollides⟩
      · rcases hequal hstack with ⟨hstack, hpush⟩ | hcollides
        · refine Or.inl ⟨hstack, ?_⟩
          intro other hmem
          rcases List.mem_cons.1 hmem with rfl | hmem
          · exact hpush
          · exact hpushes other hmem
        · exact Or.inr ⟨[], op, rest, left, right, rfl, rfl, rfl, hcollides⟩
      · refine Or.inr ⟨op :: before, other, after, left', right', rfl, ?_, ?_, hcollides⟩
        · exact evalOps_cons_eq_ok.2 ⟨next, hfirst, hbefore⟩
        · exact evalOps_cons_eq_ok.2 ⟨next', hsecond, hbefore'⟩

end Setting

/-- The next op of a machine writes values to the hasher, one after the other, and pushes
their digest. -/
structure Machine.Hashes (machine : Machine) (op : Op) (values : List Bytes)
    (digest : Bytes) : Prop where
  next : machine.pending.head? = some op
  arity : op.instruction.arity? machine.metadata.branchingFactor = some values.length
  top : machine.stack.take values.length = values
  written : machine.hasher.sumOf values = .ok (digest, machine.step.2.hasher)
  result : machine.step.1 = .ok ()
  pushed : machine.step.2.stack.head? = some digest

theorem Machine.Follows.hashes {machine : Machine} {setting : Setting} {op : Op}
    {rest : List Op} {stack values : List Bytes}
    (hfollows : machine.Follows setting (op :: rest) stack)
    (hoperands : op.instruction.operands? setting.branchingFactor stack = some values) :
    machine.Hashes op values (setting.digest values.flatten) := by
  have hfactor : machine.metadata.branchingFactor = setting.branchingFactor :=
    congrArg Setting.branchingFactor hfollows.setting_eq
  have heval := setting.eval_of_operands? hoperands
  obtain ⟨harity, htop⟩ := Instruction.operands?_eq_some hoperands
  constructor
  · rw [hfollows.pending_eq]
    rfl
  · rw [hfactor]
    exact harity
  · rw [hfollows.stack_eq]
    exact htop
  · have hmachine : machine.operands? op.instruction = some values := by
      rw [Machine.operands?, hfactor, hfollows.stack_eq]
      exact hoperands
    have hhasher : machine.step.2.hasher =
        machine.hasher.after (machine.operands? op.instruction) := by
      rw [hfollows.step_eq]
      rfl
    rw [hhasher, hmachine, Hasher.sumOf_eq, ← hfollows.setting_eq]
    rfl
  · rw [hfollows.step_result, heval]
    rfl
  · rw [hfollows.step.stack_eq, Setting.settle_of_ok heval]
    rfl

/-- A collision of the hash in the runs of a program on two lists of inputs: at one
position they write different messages to the hasher and push one digest. -/
structure Collision (program : Program) (first second : List Bytes) where
  function : HashFunction
  size : Nat
  function_eq : program.metadata.function = .ok function
  size_eq : function.resolveSize program.metadata.outputLength = .ok size
  left : Machine
  right : Machine
  start_left : Machine.start program first = .ok left
  start_right : Machine.start program second = .ok right
  position : Nat
  op : Op
  op_eq : program.ops[position]? = some op
  values : List Bytes
  others : List Bytes
  digest : Bytes
  hashes_left : (left.steps position).Hashes op values digest
  hashes_right : (right.steps position).Hashes op others digest
  message_ne : values.flatten ≠ others.flatten
  digest_values : function.digest size values.flatten = digest
  digest_others : function.digest size others.flatten = digest

def Collision.symm {program : Program} {first second : List Bytes}
    (collision : Collision program first second) : Collision program second first :=
  { collision with
    left := collision.right
    right := collision.left
    start_left := collision.start_right
    start_right := collision.start_left
    values := collision.others
    others := collision.values
    hashes_left := collision.hashes_right
    hashes_right := collision.hashes_left
    message_ne := collision.message_ne.symm
    digest_values := collision.digest_others
    digest_others := collision.digest_values }

/-- The runs on aligned inputs collide if they push inputs that differ and still give
one output. -/
theorem collision_of_aligned {program : Program} {first second : List Bytes}
    {expected expected' : Bytes} {verdict verdict' : Verdict}
    (hmatch : ∀ op ∈ program.ops, op.opcode? ≠ some .matchInput)
    (haligned : Aligned first second)
    (hpush : ∃ op ∈ program.ops, op.opcode? = some .pushInput ∧
      first[op.index.toNat]? ≠ second[op.index.toNat]?)
    (hfirst : verify program first expected = .ok verdict)
    (hsecond : verify program second expected' = .ok verdict')
    (houtput : verdict.output = verdict'.output) :
    Nonempty (Collision program first second) := by
  obtain ⟨function, size, hcount, hfunction, hsize, hstart, hops⟩ := evalOps_of_verify hfirst
  obtain ⟨function', size', hcount', hfunction', hsize', hstart', hops'⟩ :=
    evalOps_of_verify hsecond
  obtain rfl : function = function' := Except.ok.inj (hfunction.symm.trans hfunction')
  obtain rfl : size = size' := Except.ok.inj (hsize.symm.trans hsize')
  have hfollows := Machine.initial_follows hcount function size
  have hfollows' := Machine.initial_follows hcount' function size
  rw [Machine.setting_initial] at hops hops' hfollows hfollows'
  rw [← houtput] at hops'
  have hlength : ∀ message message', (function.digest size message).length =
      (function.digest size message').length := by
    intro message message'
    simp only [function.length_digest]
  have hnomatch : ∀ op ∈ program.ops, ∀ index, op.instruction ≠ .matchInput index := by
    intro op hmem index hinstruction
    exact hmatch op hmem (Op.instruction_eq_matchInput_iff.1 hinstruction).1
  rcases Setting.evalOps_aligned hlength haligned hnomatch List.Forall₂.nil hops hops' with
    ⟨_, hpushes⟩ | ⟨before, op, after, stack, stack', hsplit, hbefore, hbefore', values,
      others, hvalues, hothers, hmessage, hdigest⟩
  · obtain ⟨op, hmem, hopcode, hdiffers⟩ := hpush
    have hinstruction := Op.instruction_eq_pushInput_iff.2 ⟨hopcode, rfl⟩
    exact absurd (hpushes op hmem op.index hinstruction) hdiffers
  · rw [hsplit] at hfollows hfollows'
    have hdigest : function.digest size values.flatten = function.digest size others.flatten :=
      hdigest
    have hleft := (hfollows.steps hbefore).hashes hvalues
    have hright := (hfollows'.steps hbefore').hashes hothers
    simp only [← hdigest] at hright
    have hop : program.ops[before.length]? = some op := by
      rw [hsplit]
      simp
    exact ⟨⟨function, size, hfunction, hsize, _, _, hstart, hstart', before.length, op, hop,
      values, others, _, hleft, hright, hmessage, rfl, hdigest.symm⟩⟩

/-- An output binds the inputs that are pushed.  If two lists of inputs verify with one
output although an input that is pushed differs, the hash collides in the two runs.  The
lists may differ in content only, or in all of one input. -/
theorem collision_of_output_eq {program : Program} {first second : List Bytes}
    {expected expected' : Bytes} {verdict verdict' : Verdict}
    (hmatch : ∀ op ∈ program.ops, op.opcode? ≠ some .matchInput)
    (hinputs : first.map List.length = second.map List.length ∨
      ∃ index : Nat, ∀ other, other ≠ index → first[other]? = second[other]?)
    (hpush : ∃ op ∈ program.ops, op.opcode? = some .pushInput ∧
      first[op.index.toNat]? ≠ second[op.index.toNat]?)
    (hfirst : verify program first expected = .ok verdict)
    (hsecond : verify program second expected' = .ok verdict')
    (houtput : verdict.output = verdict'.output) :
    Nonempty (Collision program first second) := by
  have haligned : Aligned first second ∨ Aligned second first := by
    rcases hinputs with hlengths | ⟨index, hother⟩
    · exact Or.inl (Aligned.of_length_eq hlengths)
    · obtain ⟨_, _, hcount, _⟩ := evalOps_of_verify hfirst
      obtain ⟨_, _, hcount', _⟩ := evalOps_of_verify hsecond
      exact Aligned.of_eq_except (hcount.symm.trans hcount') hother
  rcases haligned with haligned | haligned
  · exact collision_of_aligned hmatch haligned hpush hfirst hsecond houtput
  · obtain ⟨op, hmem, hopcode, hdiffers⟩ := hpush
    have hpush : ∃ op ∈ program.ops, op.opcode? = some .pushInput ∧
        second[op.index.toNat]? ≠ first[op.index.toNat]? :=
      ⟨op, hmem, hopcode, hdiffers.symm⟩
    obtain ⟨collision⟩ :=
      collision_of_aligned hmatch haligned hpush hsecond hfirst houtput.symm
    exact ⟨collision.symm⟩

/-- The digest of two inputs, of one byte only. -/
def shortPair : Program :=
  ⟨(Metadata.ofFunction .blake3Xof 2 2).declaring 1,
    [Op.pushInput 1, Op.pushInput 0, Op.hashChildren]⟩

theorem verify_shortPair (first second expected : Bytes) :
    verify shortPair [first, second] expected =
      .ok (Verdict.of (Blake3.extended [first, second].flatten 1) expected) := by
  have hops : ∀ digest, (⟨digest, 2, 2, [first, second]⟩ : Setting).evalOps [] shortPair.ops =
      .ok [digest [first, second].flatten] := fun digest => rfl
  have hsetting : shortPair.setting [first, second] =
      .ok ⟨HashFunction.blake3Xof.digest 1, 2, 2, [first, second]⟩ := rfl
  rw [verify_of_setting hsetting, hops]
  rfl

/-- Digests of one byte collide, here for first inputs of different lengths. -/
theorem collision_shortPair :
    verify shortPair [[0], [7]] [185] = .ok ⟨true, [185]⟩ ∧
      verify shortPair [[207, 1], [7]] [185] = .ok ⟨true, [185]⟩ ∧
      Nonempty (Collision shortPair [[0], [7]] [[207, 1], [7]]) := by
  have hdigest : Blake3.extended [[0], [7]].flatten 1 = [185] := by decide +kernel
  have hdigest' : Blake3.extended [[207, 1], [7]].flatten 1 = [185] := by decide +kernel
  have hfirst : verify shortPair [[0], [7]] [185] = .ok ⟨true, [185]⟩ := by
    rw [verify_shortPair, hdigest]
    rfl
  have hsecond : verify shortPair [[207, 1], [7]] [185] = .ok ⟨true, [185]⟩ := by
    rw [verify_shortPair, hdigest']
    rfl
  refine ⟨hfirst, hsecond, collision_of_output_eq ?_ (Or.inr ⟨0, ?_⟩) ?_ hfirst hsecond rfl⟩
  · decide
  · intro other hother
    cases other with
    | zero => exact absurd rfl hother
    | succ other => rfl
  · exact ⟨Op.pushInput 0, by decide, by decide, by decide⟩

end MerkleStack
