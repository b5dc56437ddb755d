/-
Parts of programs in place of values.  Ops that can be carried out on a stack are carried
out in the same way above any other values, which they neither look at nor change.  So ops
that output a value on their own do inside of a program what pushing that value does.
-/
import MerkleStack.Proofs.Refinement

namespace MerkleStack

namespace Setting

variable {setting : Setting}

/-- Frame of an instruction: it leaves what lies below its operands as it is. -/
theorem eval_frame {stack after : List Bytes} {instruction : Instruction}
    (heval : setting.eval stack instruction = .ok after) (below : List Bytes) :
    setting.eval (stack ++ below) instruction = .ok (after ++ below) := by
  apply eval_eq_ok.2
  rcases eval_eq_ok.1 heval with ⟨count, harity, hcount, rfl⟩ |
    ⟨index, value, rfl, hvalue, rfl⟩ | ⟨payload, rfl, rfl⟩ | ⟨index, value, rfl, hvalue, rfl⟩
  · refine Or.inl ⟨count, harity, ?_, ?_⟩
    · exact Nat.le_trans hcount (List.length_append ▸ Nat.le_add_right _ _)
    · rw [List.take_append_of_le_length hcount, Instruction.kept_append hcount,
        List.cons_append]
  · exact Or.inr (Or.inl ⟨index, value, rfl, hvalue, rfl⟩)
  · exact Or.inr (Or.inr (Or.inl ⟨payload, rfl, rfl⟩))
  · exact Or.inr (Or.inr (Or.inr ⟨index, value, rfl, hvalue, rfl⟩))

/-- Frame of some ops. -/
theorem evalOps_frame {stack after : List Bytes} {ops : List Op}
    (heval : setting.evalOps stack ops = .ok after) (below : List Bytes) :
    setting.evalOps (stack ++ below) ops = .ok (after ++ below) := by
  induction ops generalizing stack with
  | nil =>
      cases heval
      rfl
  | cons op rest ih =>
      obtain ⟨next, hop, hrest⟩ := evalOps_cons_eq_ok.1 heval
      exact evalOps_cons_eq_ok.2 ⟨next ++ below, eval_frame hop below, ih hrest⟩

/-- Ops that do the same on every stack can be put in each other's place. -/
theorem evalOps_congr {ops others : List Op}
    (hsame : ∀ stack, setting.evalOps stack ops = setting.evalOps stack others)
    (before after : List Op) (stack : List Bytes) :
    setting.evalOps stack (before ++ ops ++ after) =
      setting.evalOps stack (before ++ others ++ after) := by
  simp only [evalOps_append, hsame]

/-- Ops that output a value push it on every stack. -/
theorem evalOps_of_output {ops : List Op} {value : Bytes}
    (heval : setting.evalOps [] ops = .ok [value]) (stack : List Bytes) :
    setting.evalOps stack ops = setting.evalOps stack [Op.pushBytes value] :=
  evalOps_frame heval stack

theorem evalOps_pushInput {index : UInt64} {value : Bytes}
    (hvalue : setting.inputs[index.toNat]? = some value) (stack : List Bytes) :
    setting.evalOps stack [Op.pushInput index] =
      setting.evalOps stack [Op.pushBytes value] := by
  have hpush : setting.eval stack (Op.pushInput index).instruction = .ok (value :: stack) :=
    eval_eq_ok.2 (Or.inr (Or.inl ⟨index, value, rfl, hvalue, rfl⟩))
  exact evalOps_cons_of_ok hpush []

end Setting

/-- Programs under the same metadata are verified alike if their ops evaluate alike. -/
theorem verify_congr {metadata : Metadata} {inputs : List Bytes} {ops others : List Op}
    {setting : Setting} (hsetting : (⟨metadata, ops⟩ : Program).setting inputs = .ok setting)
    (hsame : setting.evalOps [] ops = setting.evalOps [] others) (expected : Bytes) :
    verify ⟨metadata, ops⟩ inputs expected = verify ⟨metadata, others⟩ inputs expected := by
  have hothers : (⟨metadata, others⟩ : Program).setting inputs = .ok setting := hsetting
  rw [verify_of_setting hsetting, verify_of_setting hothers, hsame]

/-- Ops that output a value on their own can stand in any program for a push of that
value, or the push for them: verification gives the same verdict or the same error.  An op
that pushes an input is the simplest case, and it needs no verdict of its own. -/
theorem verify_substitute {metadata : Metadata} {inputs : List Bytes} {ops : List Op}
    {wanted : Bytes} {verdict : Verdict}
    (hverify : verify ⟨metadata, ops⟩ inputs wanted = .ok verdict)
    (before after : List Op) (expected : Bytes) :
    verify ⟨metadata, before ++ ops ++ after⟩ inputs expected =
        verify ⟨metadata, before ++ [Op.pushBytes verdict.output] ++ after⟩ inputs expected ∧
      ∀ (index : UInt64) (value : Bytes), inputs[index.toNat]? = some value →
        verify ⟨metadata, before ++ [Op.pushInput index] ++ after⟩ inputs expected =
          verify ⟨metadata, before ++ [Op.pushBytes value] ++ after⟩ inputs expected := by
  obtain ⟨function, size, hcount, hfunction, hsize, _, heval⟩ := evalOps_of_verify hverify
  rw [Machine.setting_initial] at heval
  have hsetting : ∀ others : List Op, (⟨metadata, others⟩ : Program).setting inputs =
      .ok ⟨function.digest size, metadata.branchingFactor, metadata.inputCount, inputs⟩ :=
    fun others => Program.setting_eq_ok hcount hfunction hsize
  constructor
  · apply verify_congr (hsetting _)
    exact Setting.evalOps_congr (Setting.evalOps_of_output heval) before after []
  · intro index value hvalue
    apply verify_congr (hsetting _)
    exact Setting.evalOps_congr (Setting.evalOps_pushInput hvalue) before after []

/-- A leaf is hashed, or its digest is pushed; a comparison of the digest fails alike. -/
theorem verify_leafDigest :
    let metadata := (Metadata.ofFunction .blake3Xof 2 0).declaring 1
    let leafDigest := [Op.pushInput 0, Op.popHash 1]
    verify ⟨metadata, leafDigest⟩ [[97], [98]] [] = .ok ⟨false, [23]⟩ ∧
      verify ⟨metadata, [Op.pushInput 1] ++ leafDigest ++ [Op.matchInput 1]⟩ [[97], [98]] [] =
        .error (.valueMismatch 1 [23] [98]) ∧
      verify ⟨metadata, [] ++ [Op.pushInput 1] ++ leafDigest⟩ [[97], [98]] [] =
        verify ⟨metadata, [] ++ [Op.pushBytes [98]] ++ leafDigest⟩ [[97], [98]] [] := by
  intro metadata leafDigest
  have hverify : verify ⟨metadata, leafDigest⟩ [[97], [98]] [] = .ok ⟨false, [23]⟩ := by
    decide +kernel
  refine ⟨hverify, ?_, ?_⟩
  · exact (verify_substitute hverify [Op.pushInput 1] [Op.matchInput 1] []).1
  · exact (verify_substitute hverify [] leafDigest []).2 1 [98] rfl

end MerkleStack
