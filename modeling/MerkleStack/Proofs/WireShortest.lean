/-
The encoder's output among all forms of a program.  No form of an integer is shorter than
the one that is written, and none that differs from it is as short; this goes over to ops
and programs field by field.  So what was decoded from any form is written in the shortest
one, which is decoded again, as claims depend on values and not on how they were written.
-/
import MerkleStack.Proofs.WireRoundTrip

namespace MerkleStack

namespace Wire

/-- The first of two byte strings is the shorter one, or they are the same. -/
def Shortens (short long : Bytes) : Prop :=
  short.length ≤ long.length ∧ (short.length = long.length → short = long)

theorem Shortens.refl (bytes : Bytes) : Shortens bytes bytes :=
  ⟨Nat.le_refl _, fun _ => rfl⟩

theorem Shortens.of_lt {short long : Bytes} (hlt : short.length < long.length) :
    Shortens short long :=
  ⟨Nat.le_of_lt hlt, fun heq => absurd heq (Nat.ne_of_lt hlt)⟩

theorem Shortens.append {short long short' long' : Bytes} (hfirst : Shortens short long)
    (hsecond : Shortens short' long') : Shortens (short ++ short') (long ++ long') := by
  obtain ⟨hle, heq⟩ := hfirst
  obtain ⟨hle', heq'⟩ := hsecond
  constructor
  · simp only [List.length_append]
    exact Nat.add_le_add hle hle'
  · intro hlength
    simp only [List.length_append] at hlength
    rw [heq (by omega), heq' (by omega)]

theorem Shortens.length_eq_iff {short long : Bytes} (hshortens : Shortens short long) :
    short.length = long.length ↔ short = long :=
  ⟨hshortens.2, congrArg List.length⟩

/-- No form of an integer is shorter than the one that is written.  The one of the same
width is that one, and any other width takes more bytes. -/
theorem IntegerForm.shortens {wide : Bool} {n : Nat} {form : Bytes}
    (hform : IntegerForm wide n form) : Shortens (putInteger n) form := by
  unfold putInteger
  cases hform with
  | byte hn =>
      rw [if_pos hn]
      exact Shortens.refl _
  | two hn =>
      split_ifs with hbyte htwo
      · exact Shortens.of_lt (by simp)
      · exact Shortens.refl _
      all_goals exact absurd hn htwo
  | four hn =>
      split_ifs with hbyte htwo hfour
      · exact Shortens.of_lt (by simp)
      · exact Shortens.of_lt (by simp)
      · exact Shortens.refl _
      · exact absurd hn hfour
  | eight hwide hn =>
      split_ifs with hbyte htwo hfour
      · exact Shortens.of_lt (by simp)
      · exact Shortens.of_lt (by simp)
      · exact Shortens.of_lt (by simp)
      · exact Shortens.refl _

theorem MetadataForm.shortens {metadata : Metadata} {form : Bytes}
    (hform : MetadataForm metadata form) : Shortens (putMetadata metadata) form := by
  obtain ⟨hhash, hlength, hinputs, hfactor⟩ := hform
  exact ((hhash.shortens.append hlength.shortens).append hinputs.shortens).append
    hfactor.shortens

theorem OpForm.shortens {op : Op} {form : Bytes} (hform : OpForm op form) :
    Shortens (putOp op) form := by
  obtain ⟨hopcode, hindex, hlength⟩ := hform
  exact ((hopcode.shortens.append hindex.shortens).append hlength.shortens).append
    (Shortens.refl op.payload)

theorem OpsForm.shortens {ops : List Op} {form : Bytes} (hform : OpsForm ops form) :
    Shortens (ops.flatMap putOp) form := by
  induction hform with
  | nil => exact Shortens.refl []
  | cons hfirst _ ih =>
      rw [List.flatMap_cons]
      exact hfirst.shortens.append ih

theorem ProgramForm.shortens {program : Program} {form : Bytes}
    (hform : ProgramForm program form) : Shortens program.encode form := by
  obtain ⟨hmetadata, hcount, hops⟩ := hform
  exact (hmetadata.shortens.append hcount.shortens).append hops.shortens

/-- The number of bytes that an integer is written in. -/
theorem length_putInteger (n : Nat) :
    (putInteger n).length =
      if n < 251 then 1 else if n < 0x10000 then 3 else if n < 0x100000000 then 5 else 9 := by
  unfold putInteger
  split_ifs <;> simp

theorem length_putInteger_le_of_lt {n : Nat} (hn : n < 2 ^ 32) :
    (putInteger n).length ≤ 5 := by
  rw [length_putInteger]
  split_ifs <;> omega

theorem length_putInteger_le (n : Nat) : (putInteger n).length ≤ 9 := by
  rw [length_putInteger]
  split_ifs <;> omega

/-- A count is written in three bytes, unless there is much to count. -/
theorem length_putInteger_le_add {n : Nat} (hn : n < 2 ^ 32) :
    (putInteger n).length ≤ 4 + n := by
  rw [length_putInteger]
  split_ifs <;> omega

theorem length_putMetadata_le (metadata : Metadata) : (putMetadata metadata).length ≤ 20 := by
  have hhash := length_putInteger_le_of_lt metadata.hashId.toNat_lt
  have hlength := length_putInteger_le_of_lt metadata.outputLength.toNat_lt
  have hinputs := length_putInteger_le_of_lt metadata.inputCount.toNat_lt
  have hfactor := length_putInteger_le_of_lt metadata.branchingFactor.toNat_lt
  simp only [putMetadata, List.length_append]
  omega

theorem length_putOp_le {op : Op} (hpayload : op.payload.length < 2 ^ 32) :
    (putOp op).length ≤ 19 + op.payload.length := by
  have hopcode := length_putInteger_le_of_lt op.opcode.toNat_lt
  have hindex := length_putInteger_le op.index.toNat
  have hlength := length_putInteger_le_of_lt hpayload
  simp only [putOp, List.length_append]
  omega

theorem length_flatMap_putOp_le {ops : List Op}
    (hpayloads : ∀ op ∈ ops, op.payload.length < 2 ^ 32) :
    (ops.flatMap putOp).length ≤
      19 * ops.length + (ops.map fun op => op.payload.length).sum := by
  induction ops with
  | nil => exact Nat.le_refl 0
  | cons op rest ih =>
      rw [List.forall_mem_cons] at hpayloads
      have hop := length_putOp_le hpayloads.1
      have hrest := ih hpayloads.2
      simp only [List.flatMap_cons, List.length_append, List.length_cons, List.map_cons,
        List.sum_cons]
      omega

end Wire

namespace Program

/-- The fields of the metadata can take a byte more than they claim, but only a long list
of ops makes its count that long, and every op takes a byte less than it claims. -/
theorem Fits.length_encode_le {program : Program} (hfit : program.Fits) :
    program.encode.length ≤
      24 + 20 * program.ops.length +
        (program.ops.map fun op => op.payload.length).sum := by
  have hlimit : Wire.claimLimit < 2 ^ 32 := by decide
  have hclaimed := hfit.claimed_le
  have hpayloads : ∀ op ∈ program.ops, op.payload.length < 2 ^ 32 := by
    intro op hop
    exact Nat.lt_of_le_of_lt (hfit.length_payload_le hop) hlimit
  have hmetadata := Wire.length_putMetadata_le program.metadata
  have hcount : (Wire.putInteger program.ops.length).length ≤ 4 + program.ops.length :=
    Wire.length_putInteger_le_add (by omega)
  have hops := Wire.length_flatMap_putOp_le hpayloads
  simp only [encode, Wire.putProgram, List.length_append]
  omega

theorem fits_of_decode {bytes : Bytes} {program : Program}
    (hdecode : decode bytes = .ok program) : program.Fits := by
  by_contra hfit
  rw [decode_of_form (form_of_decode hdecode), if_neg hfit] at hdecode
  cases hdecode

/-- Encoding what was decoded gives a normal form.  It is decoded to the same program, it is
the only one of the program's accepted forms that is as short as it is, and its length is
bounded by the claims of the program, so it is within the limit. -/
theorem encode_shortest {bytes : Bytes} {program : Program}
    (hdecode : decode bytes = .ok program) :
    decode program.encode = .ok program ∧
      program.encode.length ≤ bytes.length ∧
      (program.encode.length = bytes.length ↔ program.encode = bytes) ∧
      program.encode.length ≤
        24 + 20 * program.ops.length +
          (program.ops.map fun op => op.payload.length).sum ∧
      program.encode.length ≤ maxEncodedBytes := by
  have hfit := fits_of_decode hdecode
  have hshortens := (form_of_decode hdecode).shortens
  have hlength := hfit.length_encode_le
  refine ⟨?_, hshortens.1, hshortens.length_eq_iff, hlength,
    Nat.le_trans hlength hfit.claimed_le⟩
  rw [decode_of_form (encode_form hfit.addressable), if_pos hfit]

/-- A form in which the hash identifier, the number of ops and the length of the payload
are written wider than they need to be. -/
def wideForm : Bytes :=
  [0xfb, 0, 1, 0, 0, 2, 0xfd, 0, 0, 0, 0, 0, 0, 0, 1, 2, 0, 0xfc, 0, 0, 0, 2, 9, 9]

theorem encode_wideForm :
    let program : Program := ⟨Metadata.ofFunction .sha256 0 2, [Op.pushBytes [9, 9]]⟩
    decode wideForm = .ok program ∧ program.encode = [1, 0, 0, 2, 1, 2, 0, 2, 9, 9] ∧
      decode program.encode = .ok program ∧ program.encode.length ≠ wideForm.length := by
  intro program
  have hdecode : decode wideForm = .ok program := by decide
  have hencode : program.encode = [1, 0, 0, 2, 1, 2, 0, 2, 9, 9] := by decide
  obtain ⟨hagain, _, hequal, _⟩ := encode_shortest hdecode
  refine ⟨hdecode, hencode, hagain, ?_⟩
  rw [Ne, hequal, hencode]
  decide

end Program

end MerkleStack
