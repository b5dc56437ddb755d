/-
Decoding of what was encoded.  The encoder writes the shortest of the forms of a
program, so a program comes back unchanged, or its claims are refused as those of any
other form of it are.
-/
import MerkleStack.Proofs.WireDecoding

namespace MerkleStack

/-- The number of ops and the lengths of payloads have room in eight bytes, as the length
of any list in memory has. -/
def Program.Addressable (program : Program) : Prop :=
  program.ops.length < 2 ^ 64 ∧ ∀ op ∈ program.ops, op.payload.length < 2 ^ 64

namespace Wire

theorem putInteger_narrow {n : Nat} (hn : n < 2 ^ 32) :
    IntegerForm false n (putInteger n) := by
  unfold putInteger
  split_ifs with hbyte htwo
  · exact .byte hbyte
  · exact .two htwo
  · exact .four hn
  · omega

theorem putInteger_wide {n : Nat} (hn : n < 2 ^ 64) : IntegerForm true n (putInteger n) := by
  unfold putInteger
  split_ifs with hbyte htwo hfour
  · exact .byte hbyte
  · exact .two htwo
  · exact .four hfour
  · exact .eight rfl hn

theorem putMetadata_form (metadata : Metadata) :
    MetadataForm metadata (putMetadata metadata) :=
  .fields (putInteger_narrow metadata.hashId.toNat_lt)
    (putInteger_narrow metadata.outputLength.toNat_lt)
    (putInteger_narrow metadata.inputCount.toNat_lt)
    (putInteger_narrow metadata.branchingFactor.toNat_lt)

theorem putOp_form {op : Op} (hpayload : op.payload.length < 2 ^ 64) :
    OpForm op (putOp op) :=
  .fields (putInteger_narrow op.opcode.toNat_lt) (putInteger_wide op.index.toNat_lt)
    (putInteger_wide hpayload)

/-- Ops in turn, each in one of its forms. -/
theorem OpsForm.flatMap {ops : List Op} {put : Op → Bytes}
    (hforms : ∀ op ∈ ops, OpForm op (put op)) : OpsForm ops (ops.flatMap put) := by
  induction ops with
  | nil => exact .nil
  | cons op ops ih =>
      rw [List.forall_mem_cons] at hforms
      rw [List.flatMap_cons]
      exact .cons hforms.1 (ih hforms.2)

theorem flatMap_putOp_form {ops : List Op}
    (hpayloads : ∀ op ∈ ops, op.payload.length < 2 ^ 64) :
    OpsForm ops (ops.flatMap putOp) :=
  OpsForm.flatMap fun op hop => putOp_form (hpayloads op hop)

end Wire

namespace Program

theorem encode_form {program : Program} (hspace : program.Addressable) :
    Wire.ProgramForm program program.encode :=
  .fields (Wire.putMetadata_form program.metadata) (Wire.putInteger_wide hspace.1)
    (Wire.flatMap_putOp_form hspace.2)

/-- All lengths are claimed, so they are small in a program that fits. -/
theorem Fits.addressable {program : Program} (hfit : program.Fits) :
    program.Addressable := by
  have hlimit : Wire.claimLimit < 2 ^ 64 := by decide
  have hclaimed := hfit.claimed_le
  constructor
  · omega
  · intro op hop
    exact Nat.lt_of_le_of_lt (hfit.length_payload_le hop) hlimit

/-- An encoded program is decoded to itself if it fits, and refused for its claims
if not. -/
theorem decode_encode (program : Program) :
    (program.Fits → decode program.encode = .ok program) ∧
      (program.Addressable → ¬ program.Fits →
        decode program.encode =
          .error (.encoding "unable to decode program: LimitExceeded")) := by
  constructor
  · intro hfit
    rw [decode_of_form (encode_form hfit.addressable), if_pos hfit]
  · intro hspace hfit
    rw [decode_of_form (encode_form hspace), if_neg hfit]

/-- A program of equal ops without payload. -/
def repeating (count : Nat) : Program :=
  ⟨default, List.replicate count default⟩

theorem repeating_fits_iff {count : Nat} :
    (repeating count).Fits ↔ 24 + 40 * count ≤ Wire.claimLimit := by
  constructor
  · intro hfit
    simpa [repeating, Wire.claimLimit] using hfit 0 (Nat.zero_le _)
  · intro hclaim done hdone
    have hpayload : (default : Op).payload.length = 0 := rfl
    rw [Wire.claimLimit] at hclaim
    simp only [Wire.claimedAfter, repeating, List.length_replicate, List.take_replicate,
      List.map_replicate, List.sum_replicate_nat, hpayload, Nat.mul_zero]
    omega

/-- With no payloads the limit is met between these two numbers of ops. -/
theorem decode_encode_repeating :
    decode (repeating 419429).encode = .ok (repeating 419429) ∧
      decode (repeating 419430).encode =
        .error (.encoding "unable to decode program: LimitExceeded") := by
  constructor
  · exact (decode_encode _).1 (repeating_fits_iff.2 (by decide))
  · apply (decode_encode _).2
    · constructor
      · rw [repeating, List.length_replicate]
        decide
      · intro op hop
        rw [List.eq_of_mem_replicate hop]
        decide
    · rw [repeating_fits_iff]
      decide

end Program

end MerkleStack
