/-
Assertions inside of programs.  Peeking at some values and matching their digest with an
input leaves the stack as it was, or stops the program.  So an assertion can be put anywhere
into a program: what it holds of is verified as if it were not there.
-/
import MerkleStack.Proofs.Stepping
import MerkleStack.Proofs.Substitution

namespace MerkleStack

/-- Ops that demand of an input that it be the digest of the `count` values on top. -/
def assertion (count index : UInt64) : List Op :=
  [Op.peekHash count, Op.matchInput index]

namespace Setting

variable {setting : Setting} {stack : List Bytes} {count : UInt64}

theorem evalOps_assertion_of_length_lt (hdepth : stack.length < count.toNat) (index : UInt64) :
    setting.evalOps stack (assertion count index) =
      .error (.program (.stackUnderflow count.toNat stack.length)) := by
  apply evalOps_cons_of_error
  exact eval_of_length_lt rfl hdepth

/-- With enough values on the stack it is for the comparison to decide. -/
theorem evalOps_assertion_of_le_length (hdepth : count.toNat ≤ stack.length) (index : UInt64) :
    setting.evalOps stack (assertion count index) =
      setting.eval (setting.digest (stack.take count.toNat).flatten :: stack)
        (.matchInput index) := by
  have hpeek : setting.eval stack (Op.peekHash count).instruction =
      .ok (setting.digest (stack.take count.toNat).flatten :: stack) :=
    eval_of_le_length rfl hdepth
  rw [assertion, evalOps_cons_of_ok hpeek]
  apply bind_pure

/-- An assertion changes nothing on the stack.  It looks at the depth first, then at the
index of the input, and only then does it compare. -/
theorem evalOps_assertion (hsupplied : setting.Supplied) (stack : List Bytes)
    (count index : UInt64) :
    setting.evalOps stack (assertion count index) =
      if stack.length < count.toNat then
        .error (.program (.stackUnderflow count.toNat stack.length))
      else if hindex : setting.inputs.length ≤ index.toNat then
        .error (.program (.inputOutOfBounds index setting.inputCount))
      else
        let digest := setting.digest (stack.take count.toNat).flatten
        let wanted := setting.inputs[index.toNat]
        if digest = wanted then .ok stack else .error (.valueMismatch index digest wanted) := by
  by_cases hdepth : stack.length < count.toNat
  · rw [if_pos hdepth]
    exact evalOps_assertion_of_length_lt hdepth index
  · rw [if_neg hdepth, evalOps_assertion_of_le_length (Nat.le_of_not_lt hdepth)]
    by_cases hindex : setting.inputs.length ≤ index.toNat
    · rw [dif_pos hindex]
      apply eval_matchInput_error
      apply input_of_not_lt hsupplied
      rw [hsupplied]
      exact Nat.not_lt.2 hindex
    · rw [dif_neg hindex]
      apply eval_matchInput_cons
      exact input_eq_ok.2 (List.getElem?_eq_getElem (Nat.lt_of_not_le hindex))

theorem eq_of_evalOps_assertion (hsupplied : setting.Supplied) {after : List Bytes}
    {index : UInt64} (heval : setting.evalOps stack (assertion count index) = .ok after) :
    after = stack := by
  simp only [evalOps_assertion hsupplied] at heval
  split_ifs at heval
  exact (Except.ok.inj heval).symm

end Setting

/-- Ops that leave the stack as it was add their failures to a program and nothing else. -/
theorem verify_inserted {metadata : Metadata} {inputs : List Bytes} {setting : Setting}
    {before inserted : List Op} {stack : List Bytes}
    (hsetting : (⟨metadata, before⟩ : Program).setting inputs = .ok setting)
    (hbefore : setting.evalOps [] before = .ok stack)
    (hinserted : ∀ next, setting.evalOps stack inserted = .ok next → next = stack)
    (after : List Op) (expected : Bytes) :
    verify ⟨metadata, before ++ inserted ++ after⟩ inputs expected =
      (setting.evalOps stack inserted).bind
        fun _ => verify ⟨metadata, before ++ after⟩ inputs expected := by
  have hfirst : setting.evalOps [] (before ++ inserted) = setting.evalOps stack inserted :=
    Setting.evalOps_append_of_ok hbefore inserted
  cases heval : setting.evalOps stack inserted with
  | error cause =>
      rw [heval] at hfirst
      exact verify_of_evalOps_error hsetting hfirst after expected
  | ok next =>
      rw [heval, hinserted next heval] at hfirst
      have hwhole : (⟨metadata, before ++ inserted ++ after⟩ : Program).setting inputs =
          .ok setting := hsetting
      apply verify_congr hwhole
      rw [Setting.evalOps_append_of_ok hfirst, Setting.evalOps_append_of_ok hbefore]

/-- An assertion put into a program adds failures and changes nothing else.  If the ops
before it fail, their error is the result.  If they do not, the result is what the
assertion finds wrong with the stack that they leave: too few values for the digest, an
index that is not that of an input, or a digest that differs from the input.  If nothing is
wrong, the result is that of the program without the assertion, be it a verdict or an
error. -/
theorem verify_assertion {metadata : Metadata} {inputs : List Bytes}
    {function : HashFunction} {size : Nat}
    (hcount : metadata.inputCount.toNat = inputs.length)
    (hfunction : metadata.function = .ok function)
    (hsize : function.resolveSize metadata.outputLength = .ok size)
    (before after : List Op) (count index : UInt64) (expected : Bytes) :
    let program : Program := ⟨metadata, before ++ assertion count index ++ after⟩
    ∃ first, Machine.start ⟨metadata, before⟩ inputs = .ok first ∧
      (∀ cause middle, first.run = (.error cause, middle) →
        verify program inputs expected = .error cause) ∧
      ∀ middle, first.run = (.ok (), middle) →
        verify program inputs expected =
          if middle.depth < count.toNat then
            .error (.program (.stackUnderflow count.toNat middle.depth))
          else if hindex : inputs.length ≤ index.toNat then
            .error (.program (.inputOutOfBounds index metadata.inputCount))
          else
            let digest := function.digest size (middle.stack.take count.toNat).flatten
            let wanted := inputs[index.toNat]
            if digest = wanted then verify ⟨metadata, before ++ after⟩ inputs expected
            else .error (.valueMismatch index digest wanted) := by
  intro program
  let setting : Setting :=
    ⟨function.digest size, metadata.branchingFactor, metadata.inputCount, inputs⟩
  have hsetting : (⟨metadata, before⟩ : Program).setting inputs = .ok setting :=
    Program.setting_eq_ok hcount hfunction hsize
  have hsupplied : setting.Supplied := hcount
  let first := Machine.initial ⟨metadata, before⟩ inputs function size
  have hruns : Machine.leaves first.run = setting.evalOps [] before := by
    have hfollows : first.Follows first.setting before [] :=
      Machine.initial_follows hcount function size
    rw [Machine.setting_initial] at hfollows
    exact Machine.leaves_runThrough hfollows
  refine ⟨first, Machine.start_eq_ok.2 ⟨function, size, hcount, hfunction, hsize, rfl⟩, ?_, ?_⟩
  · intro cause middle hrun
    rw [hrun] at hruns
    change verify ⟨metadata, before ++ assertion count index ++ after⟩ inputs expected = _
    rw [List.append_assoc]
    exact verify_of_evalOps_error hsetting hruns.symm _ expected
  · intro middle hrun
    rw [hrun] at hruns
    have hinserted : ∀ next, setting.evalOps middle.stack (assertion count index) = .ok next →
        next = middle.stack :=
      fun next => Setting.eq_of_evalOps_assertion hsupplied
    rw [verify_inserted hsetting hruns.symm hinserted, Setting.evalOps_assertion hsupplied]
    simp only [Machine.depth]
    split_ifs <;> rfl

/-- A digest that is claimed of a leaf before it is the output, with the right input and with
a wrong one. -/
theorem verify_assertion_leaf :
    let metadata := (Metadata.ofFunction .blake3Xof 1 0).declaring 1
    let leafDigest := [Op.pushBytes [97], Op.popHash 1]
    let claiming := [Op.pushBytes [97]] ++ assertion 1 0 ++ [Op.popHash 1]
    verify ⟨metadata, claiming⟩ [[23]] [] = verify ⟨metadata, leafDigest⟩ [[23]] [] ∧
      verify ⟨metadata, claiming⟩ [[24]] [] = .error (.valueMismatch 0 [23] [24]) := by
  intro metadata leafDigest claiming
  have hcount : ∀ wanted : Bytes, metadata.inputCount.toNat = [wanted].length := fun _ => rfl
  constructor
  · obtain ⟨first, hstart, _, hverify⟩ := verify_assertion (hcount [23]) rfl rfl
      [Op.pushBytes [97]] [Op.popHash 1] 1 0 []
    cases hstart
    apply (hverify _ rfl).trans
    decide +kernel
  · obtain ⟨first, hstart, _, hverify⟩ := verify_assertion (hcount [24]) rfl rfl
      [Op.pushBytes [97]] [Op.popHash 1] 1 0 []
    cases hstart
    apply (hverify _ rfl).trans
    decide +kernel

end MerkleStack
