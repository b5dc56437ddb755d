/-
The two BLAKE3 functions at one size.  The digest of fixed size is what the output stream
begins with.  So a program that asks for as many bytes of the stream is verified as with the
digest of fixed size, also where digests are hashed again, compared or reported.
-/
import MerkleStack.Proofs.Refinement

namespace MerkleStack

/-- Whole words that a byte string begins with. -/
theorem take_flatMap_littleEndian (width count : Nat) (words : List UInt32) :
    (words.flatMap fun w => littleEndian width w.toNat).take (count * width) =
      (words.take count).flatMap fun w => littleEndian width w.toNat := by
  induction words generalizing count with
  | nil => simp
  | cons w rest ih =>
      cases count with
      | zero => simp
      | succ count =>
          have hword : (littleEndian width w.toNat).length ≤ (count + 1) * width := by
            rw [length_littleEndian, Nat.succ_mul]
            exact Nat.le_add_left width _
          rw [List.flatMap_cons, List.take_append, List.take_of_length_le hword,
            length_littleEndian, Nat.succ_mul, Nat.add_sub_cancel, ih, List.take_succ_cons,
            List.flatMap_cons]

namespace Blake3

/-- The words of the root's value are the first half of those of its output block. -/
theorem Node.take_outputBlock (root : Node) :
    (root.outputBlock 0).take HashFunction.fixedSize = root.fixedOutput := by
  rw [Node.outputBlock, Node.fixedOutput, Node.value, Vector.toList_take]
  exact take_flatMap_littleEndian 4 8 _

/-- One block of the stream is enough for a digest. -/
theorem Node.output_fixedSize (root : Node) :
    root.output HashFunction.fixedSize = root.fixedOutput := by
  rw [← Node.take_outputBlock, Node.output, squeeze]
  change (root.outputBlock 0 ++ []).take HashFunction.fixedSize = _
  rw [List.append_nil]

theorem extended_fixedSize (message : Bytes) :
    extended message HashFunction.fixedSize = digest message :=
  (tree 0 message).output_fixedSize

end Blake3

/-- Ops are verified alike under metadata that give them the same setting. -/
theorem verify_of_setting_eq {program other : Program} {inputs : List Bytes}
    (hsetting : program.setting inputs = other.setting inputs) (hops : program.ops = other.ops)
    (expected : Bytes) : verify program inputs expected = verify other inputs expected := by
  cases hfirst : program.setting inputs with
  | error cause =>
      rw [verify_of_setting_error hfirst, verify_of_setting_error (hsetting ▸ hfirst)]
  | ok setting => rw [verify_of_setting hfirst, verify_of_setting (hsetting ▸ hfirst), hops]

/-- A program gives the same verdict or the same error under BLAKE3 and under the BLAKE3
output stream with thirty-two bytes declared. -/
theorem verify_blake3_eq_verify_blake3Xof (inputCount branchingFactor : UInt32)
    (ops : List Op) (inputs : List Bytes) (expected : Bytes) :
    verify ⟨⟨4, 0, inputCount, branchingFactor⟩, ops⟩ inputs expected =
      verify ⟨⟨5, 32, inputCount, branchingFactor⟩, ops⟩ inputs expected := by
  have hdigest : HashFunction.digest .blake3 HashFunction.fixedSize =
      HashFunction.digest .blake3Xof HashFunction.fixedSize := by
    funext message
    exact (Blake3.extended_fixedSize message).symm
  have hsetting : (⟨⟨4, 0, inputCount, branchingFactor⟩, ops⟩ : Program).setting inputs =
      (⟨⟨5, 32, inputCount, branchingFactor⟩, ops⟩ : Program).setting inputs := by
    by_cases hcount : inputCount.toNat = inputs.length
    · rw [Program.setting_eq_ok hcount rfl rfl, Program.setting_eq_ok hcount rfl rfl, hdigest]
      rfl
    · rw [Program.setting, Program.setting, if_pos hcount, if_pos hcount]
      rfl
  exact verify_of_setting_eq hsetting rfl expected

end MerkleStack
