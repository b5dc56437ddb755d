/-
The memory that decoding claims, and what it decides.  All ops are claimed before the
first one is read; each gives its claim back when its turn comes and claims its fields
and its payload instead.  Every form of a program is read as that program if the claims
stay within the limit, and runs into the limit otherwise.
-/
import MerkleStack.Proofs.WireGrammar

namespace MerkleStack

namespace Wire

/-- Bytes claimed after the first `count` of some ops, with `claimed` before them.  Each
op gives 40 bytes back and claims 20 for its fields, beside its payload. -/
def claimedAfter (claimed : Nat) (ops : List Op) (count : Nat) : Nat :=
  claimed - 20 * count + ((ops.take count).map fun op => op.payload.length).sum

/-- The claims stay within the limit of sixteen mebibytes while some ops are read. -/
def OpsFit (claimed : Nat) (ops : List Op) : Prop :=
  ∀ count ≤ ops.length, claimedAfter claimed ops count ≤ 16777216

instance (claimed : Nat) (ops : List Op) : Decidable (OpsFit claimed ops) :=
  Nat.decidableBallLE ops.length _

end Wire

/-- The claims stay within the limit while a program is decoded.  The metadata and the
number of ops claim 24 bytes, and every op 40 before it is read. -/
def Program.Fits (program : Program) : Prop :=
  Wire.OpsFit (24 + 40 * program.ops.length) program.ops

instance (program : Program) : Decidable program.Fits :=
  inferInstanceAs (Decidable (Wire.OpsFit _ _))

namespace Wire

@[simp] theorem claimedAfter_zero (claimed : Nat) (ops : List Op) :
    claimedAfter claimed ops 0 = claimed := by
  simp [claimedAfter]

theorem claimedAfter_cons {claimed count : Nat} (op : Op) (ops : List Op)
    (hclaimed : 20 * (count + 1) ≤ claimed) :
    claimedAfter claimed (op :: ops) (count + 1) =
      claimedAfter (claimed - 20 + op.payload.length) ops count := by
  simp only [claimedAfter, List.take_succ_cons, List.map_cons, List.sum_cons]
  omega

theorem opsFit_nil {claimed : Nat} : OpsFit claimed [] ↔ claimed ≤ claimLimit := by
  simp [OpsFit, claimLimit]

theorem opsFit_cons {claimed : Nat} {op : Op} {ops : List Op}
    (hlow : opClaim * (op :: ops).length ≤ claimed) (hhigh : claimed ≤ claimLimit) :
    OpsFit claimed (op :: ops) ↔ OpsFit (claimed - 20 + op.payload.length) ops := by
  simp only [opClaim, List.length_cons] at hlow
  constructor
  · intro hfit count hcount
    rw [← claimedAfter_cons op ops (by omega)]
    exact hfit (count + 1) (Nat.succ_le_succ hcount)
  · intro hfit count hcount
    cases count with
    | zero => simpa [claimLimit] using hhigh
    | succ count =>
        have hcount := Nat.le_of_succ_le_succ hcount
        rw [claimedAfter_cons op ops (by omega)]
        exact hfit count hcount

theorem getInteger_of_width {wide : Bool} {b : UInt8} {n width : Nat} (rest : Bytes)
    (claimed : Nat) (hlead : Lead.ofByte wide b = .width width) (hn : n < 256 ^ width) :
    getInteger wide ⟨b :: (bigEndian width n ++ rest), claimed⟩ =
      .ok (n, ⟨rest, claimed⟩) := by
  have hbytes := getBytes_append (bigEndian width n) rest claimed
  rw [length_bigEndian] at hbytes
  rw [getInteger_cons, hlead]
  refine (bind_of_ok hbytes).trans ?_
  rw [ofBigEndian_bigEndian hn]
  rfl

theorem getInteger_of_form {wide : Bool} {n : Nat} {form : Bytes} (rest : Bytes)
    (claimed : Nat) (hform : IntegerForm wide n form) :
    getInteger wide ⟨form ++ rest, claimed⟩ = .ok (n, ⟨rest, claimed⟩) := by
  cases hform with
  | byte hn =>
      rw [List.singleton_append, getInteger_cons, Lead.ofByte_ofNat hn]
  | two hn => exact getInteger_of_width rest claimed rfl hn
  | four hn => exact getInteger_of_width rest claimed rfl hn
  | eight hwide hn => exact getInteger_of_width rest claimed (by rw [hwide]; rfl) hn

theorem getU32_of_form {value : UInt32} {form : Bytes} {claimed : Nat} (rest : Bytes)
    (hform : IntegerForm false value.toNat form) (hclaim : claimed + 4 ≤ claimLimit) :
    getU32 ⟨form ++ rest, claimed⟩ = .ok (value, ⟨rest, claimed + 4⟩) := by
  refine (bind_of_ok (claim_of_le hclaim)).trans ?_
  refine (bind_of_ok (getInteger_of_form rest _ hform)).trans ?_
  rw [UInt32.ofNat_toNat]
  rfl

theorem getU64_of_form {n : Nat} {form : Bytes} {claimed : Nat} (rest : Bytes)
    (hform : IntegerForm true n form) (hclaim : claimed + 8 ≤ claimLimit) :
    getU64 ⟨form ++ rest, claimed⟩ = .ok (UInt64.ofNat n, ⟨rest, claimed + 8⟩) := by
  refine (bind_of_ok (claim_of_le hclaim)).trans ?_
  exact bind_of_ok (getInteger_of_form rest _ hform)

theorem getMetadata_of_form {metadata : Metadata} {form : Bytes} (rest : Bytes)
    (hform : MetadataForm metadata form) :
    getMetadata ⟨form ++ rest, 0⟩ = .ok (metadata, ⟨rest, 16⟩) := by
  rcases hform with ⟨hhash, hlength, hinputs, hfactor⟩
  simp only [List.append_assoc]
  refine (bind_of_ok (getU32_of_form _ hhash (by decide))).trans ?_
  refine (bind_of_ok (getU32_of_form _ hlength (by decide))).trans ?_
  refine (bind_of_ok (getU32_of_form _ hinputs (by decide))).trans ?_
  exact bind_of_ok (getU32_of_form _ hfactor (by decide))

theorem getPayload_of_form {payload length : Bytes} (rest : Bytes) (claimed : Nat)
    (hlength : IntegerForm true payload.length length) (hclaim : claimed + 8 ≤ claimLimit) :
    getPayload ⟨length ++ payload ++ rest, claimed⟩ =
      if claimed + 8 + payload.length ≤ claimLimit then
        .ok (payload, ⟨rest, claimed + 8 + payload.length⟩)
      else
        .error .limitExceeded := by
  have hcount : (UInt64.ofNat payload.length).toNat = payload.length :=
    UInt64.toNat_ofNat_of_lt' hlength.lt
  rw [List.append_assoc]
  refine (bind_of_ok (getU64_of_form _ hlength hclaim)).trans ?_
  rw [hcount]
  by_cases hpayload : claimed + 8 + payload.length ≤ claimLimit
  · rw [if_pos hpayload]
    refine (bind_of_ok (claim_of_le hpayload)).trans ?_
    exact getBytes_append payload rest _
  · rw [if_neg hpayload]
    exact bind_of_error (claim_of_lt (Nat.lt_of_not_le hpayload))

theorem getOp_of_form {op : Op} {form : Bytes} {claimed : Nat} (rest : Bytes)
    (hform : OpForm op form) (hlow : opClaim ≤ claimed) (hhigh : claimed ≤ claimLimit) :
    getOp ⟨form ++ rest, claimed⟩ =
      if claimed - 20 + op.payload.length ≤ claimLimit then
        .ok (op, ⟨rest, claimed - 20 + op.payload.length⟩)
      else
        .error .limitExceeded := by
  rcases hform with ⟨hopcode, hindex, hlength⟩
  have hreleased : claimed - opClaim + 4 + 8 + 8 = claimed - 20 := by
    simp only [opClaim] at hlow ⊢
    omega
  have hrelease : ∀ bytes, release opClaim ⟨bytes, claimed⟩ =
      .ok ((), ⟨bytes, claimed - opClaim⟩) := fun bytes => rfl
  simp only [List.append_assoc]
  refine (bind_of_ok (hrelease _)).trans ?_
  refine (bind_of_ok (getU32_of_form _ hopcode (by omega))).trans ?_
  refine (bind_of_ok (getU64_of_form _ hindex (by omega))).trans ?_
  have hpayload := getPayload_of_form rest (claimed - opClaim + 4 + 8) hlength (by omega)
  rw [hreleased, List.append_assoc] at hpayload
  by_cases hfit : claimed - 20 + op.payload.length ≤ claimLimit
  · rw [if_pos hfit] at hpayload ⊢
    refine (bind_of_ok hpayload).trans ?_
    rw [UInt64.ofNat_toNat]
    rfl
  · rw [if_neg hfit] at hpayload ⊢
    exact bind_of_error hpayload

theorem getOps_of_form {ops : List Op} {form : Bytes} {claimed : Nat} (rest : Bytes)
    (before : List Op) (hform : OpsForm ops form)
    (hlow : opClaim * ops.length ≤ claimed) (hhigh : claimed ≤ claimLimit) :
    getOps ops.length before ⟨form ++ rest, claimed⟩ =
      if OpsFit claimed ops then
        .ok (before.reverse ++ ops, ⟨rest, claimedAfter claimed ops ops.length⟩)
      else
        .error .limitExceeded := by
  -- The claims and the ops read so far are what the ops before left, so both vary.
  induction hform generalizing claimed before with
  | nil =>
      rw [if_pos (opsFit_nil.2 hhigh), List.append_nil]
      simp only [claimedAfter, List.length_nil, List.take_nil, List.map_nil, List.sum_nil]
      rfl
  | @cons op ops first others hfirst hothers ih =>
      have hop := getOp_of_form (others ++ rest) hfirst
        (by simp only [List.length_cons, opClaim] at hlow ⊢; omega) hhigh
      have hnext : opClaim * ops.length ≤ claimed - 20 + op.payload.length := by
        simp only [List.length_cons, opClaim] at hlow ⊢
        omega
      rw [List.append_assoc]
      by_cases hfit : claimed - 20 + op.payload.length ≤ claimLimit
      · rw [if_pos hfit] at hop
        refine (bind_of_ok hop).trans ((ih (op :: before) hnext hfit).trans ?_)
        simp only [opsFit_cons hlow hhigh, List.reverse_cons, List.append_assoc,
          List.singleton_append]
        rw [List.length_cons, claimedAfter_cons]
        simp only [List.length_cons, opClaim] at hlow
        omega
      · rw [if_neg hfit] at hop
        rw [if_neg]
        · exact bind_of_error hop
        · intro hall
          apply hfit
          simpa [claimLimit] using (opsFit_cons hlow hhigh).1 hall 0 (Nat.zero_le _)

theorem getProgram_of_form {program : Program} {form : Bytes}
    (hform : ProgramForm program form) :
    getProgram ⟨form, 0⟩ =
      if program.Fits then
        .ok (program, ⟨[], claimedAfter (24 + opClaim * program.ops.length)
          program.ops program.ops.length⟩)
      else
        .error .limitExceeded := by
  rcases hform with ⟨hmetadata, hcount, hops⟩
  have hlength : (UInt64.ofNat program.ops.length).toNat = program.ops.length :=
    UInt64.toNat_ofNat_of_lt' hcount.lt
  rw [List.append_assoc]
  refine (bind_of_ok (getMetadata_of_form _ hmetadata)).trans ?_
  refine (bind_of_ok (getU64_of_form _ hcount (by decide))).trans ?_
  rw [hlength]
  by_cases hclaim : 24 + opClaim * program.ops.length ≤ claimLimit
  · have hread := getOps_of_form [] [] hops (Nat.le_add_left _ 24) hclaim
    rw [List.append_nil] at hread
    refine (bind_of_ok (claim_of_le hclaim)).trans ?_
    by_cases hfit : program.Fits
    · rw [if_pos hfit]
      exact bind_of_ok (hread.trans (if_pos hfit))
    · rw [if_neg hfit]
      exact bind_of_error (hread.trans (if_neg hfit))
  · have hfit : ¬ program.Fits := by
      intro hfit
      apply hclaim
      simpa [opClaim, claimLimit] using hfit 0 (Nat.zero_le _)
    rw [if_neg hfit]
    exact bind_of_error (claim_of_lt (Nat.lt_of_not_le hclaim))

theorem ofBytes_of_form {program : Program} {form : Bytes}
    (hform : ProgramForm program form) :
    ofBytes form = if program.Fits then .ok program else .error .limitExceeded := by
  unfold ofBytes
  rw [getProgram_of_form hform]
  split_ifs <;> rfl

/-- Bytes that a program was read from were all taken. -/
theorem getProgram_of_ofBytes {bytes : Bytes} {program : Program}
    (hbytes : ofBytes bytes = .ok program) :
    ∃ claimed, getProgram ⟨bytes, 0⟩ = .ok (program, ⟨[], claimed⟩) := by
  unfold ofBytes at hbytes
  cases hread : getProgram ⟨bytes, 0⟩ with
  | error cause =>
      rw [hread] at hbytes
      cases hbytes
  | ok pair =>
      rcases pair with ⟨found, rest, claimed⟩
      rw [hread] at hbytes
      change (if rest.isEmpty then _ else _) = _ at hbytes
      split_ifs at hbytes with hempty
      cases hbytes
      rw [List.isEmpty_iff.1 hempty]
      exact ⟨claimed, rfl⟩

theorem form_of_ofBytes {bytes : Bytes} {program : Program}
    (hbytes : ofBytes bytes = .ok program) : ProgramForm program bytes := by
  obtain ⟨claimed, hread⟩ := getProgram_of_ofBytes hbytes
  obtain ⟨form, hform, hrest⟩ := getProgram_reads hread
  simp only [List.append_nil] at hrest
  rw [hrest]
  exact hform

end Wire

namespace Program

/-- The claims that are left when all of a program is read. -/
theorem Fits.claimed_le {program : Program} (hfit : program.Fits) :
    24 + 20 * program.ops.length + (program.ops.map fun op => op.payload.length).sum ≤
      Wire.claimLimit := by
  have hlast := hfit program.ops.length (Nat.le_refl _)
  simp only [Wire.claimedAfter, List.take_length] at hlast
  rw [Wire.claimLimit]
  omega

theorem Fits.length_payload_le {program : Program} (hfit : program.Fits) {op : Op}
    (hop : op ∈ program.ops) : op.payload.length ≤ Wire.claimLimit := by
  have hclaimed := hfit.claimed_le
  have hsum : op.payload.length ≤ (program.ops.map fun op => op.payload.length).sum :=
    List.le_sum_of_mem (List.mem_map_of_mem hop)
  omega

theorem decode_of_form {program : Program} {form : Bytes}
    (hform : Wire.ProgramForm program form) :
    decode form =
      if program.Fits then .ok program
      else .error (.encoding "unable to decode program: LimitExceeded") := by
  rw [decode, Wire.ofBytes_of_form hform]
  split_ifs <;> rfl

theorem ofBytes_of_decode {bytes : Bytes} {program : Program}
    (hdecode : decode bytes = .ok program) : Wire.ofBytes bytes = .ok program := by
  unfold decode at hdecode
  split at hdecode
  · case h_1 found hbytes =>
      cases hdecode
      exact hbytes
  · cases hdecode

theorem form_of_decode {bytes : Bytes} {program : Program}
    (hdecode : decode bytes = .ok program) : Wire.ProgramForm program bytes :=
  Wire.form_of_ofBytes (ofBytes_of_decode hdecode)

/-- Exactly the forms of programs that fit are decoded, each as its program. -/
theorem decode_eq_ok_iff (bytes : Bytes) (program : Program) :
    decode bytes = .ok program ↔ Wire.ProgramForm program bytes ∧ program.Fits := by
  constructor
  · intro hdecode
    have hform := form_of_decode hdecode
    refine ⟨hform, ?_⟩
    by_cases hfit : program.Fits
    · exact hfit
    · rw [decode_of_form hform, if_neg hfit] at hdecode
      cases hdecode
  · rintro ⟨hform, hfit⟩
    rw [decode_of_form hform, if_pos hfit]

/-- A program of one op, with a payload of zeros. -/
def zeros (length : Nat) : Program :=
  ⟨⟨1, 0, 2, 2⟩, [⟨4, 0, List.replicate length 0⟩]⟩

theorem zeros_fits_iff {length : Nat} : (zeros length).Fits ↔ length ≤ 16777172 := by
  have hlow : Wire.opClaim * (zeros length).ops.length ≤ 64 := (by decide : 40 * 1 ≤ 64)
  have hfirst := Wire.opsFit_cons hlow (by decide)
  rw [List.length_replicate, Wire.opsFit_nil, Wire.claimLimit] at hfirst
  refine hfirst.trans ?_
  omega

/-- A form of it with integers of every width. -/
theorem zeros_form {length : Nat} (hlength : length < 2 ^ 32) :
    Wire.ProgramForm (zeros length)
      ([1, 0xfb, 0, 0, 2, 2, 0xfd, 0, 0, 0, 0, 0, 0, 0, 1, 4, 0, 0xfc] ++
        bigEndian 4 length ++ List.replicate length 0) := by
  have hmetadata : Wire.MetadataForm ⟨1, 0, 2, 2⟩ ([1] ++ [0xfb, 0, 0] ++ [2] ++ [2]) :=
    .fields (.byte (by decide)) (.two (by decide)) (.byte (by decide)) (.byte (by decide))
  have hcount : Wire.IntegerForm true 1 [0xfd, 0, 0, 0, 0, 0, 0, 0, 1] :=
    .eight rfl (by decide)
  have hopcode : Wire.IntegerForm false 4 [4] := .byte (by decide)
  have hindex : Wire.IntegerForm true 0 [0] := .byte (by decide)
  have hpayload : Wire.IntegerForm true (List.replicate length (0 : UInt8)).length
      (0xfc :: bigEndian 4 length) := by
    rw [List.length_replicate]
    exact .four hlength
  have hop : Wire.OpForm ⟨4, 0, List.replicate length 0⟩
      ([4] ++ [0] ++ (0xfc :: bigEndian 4 length) ++ List.replicate length 0) :=
    .fields hopcode hindex hpayload
  have hform : Wire.ProgramForm (zeros length) _ := .fields hmetadata hcount (.cons hop .nil)
  simpa using hform

/-- The longest payload of a single op is decoded, and one that is longer by one byte runs
into the limit. -/
theorem decode_zeros :
    decode ([1, 0xfb, 0, 0, 2, 2, 0xfd, 0, 0, 0, 0, 0, 0, 0, 1, 4, 0, 0xfc, 0, 0xff, 0xff,
        0xd4] ++ List.replicate 16777172 0) =
      .ok ⟨⟨1, 0, 2, 2⟩, [⟨4, 0, List.replicate 16777172 0⟩]⟩ ∧
    decode ([1, 0xfb, 0, 0, 2, 2, 0xfd, 0, 0, 0, 0, 0, 0, 0, 1, 4, 0, 0xfc, 0, 0xff, 0xff,
        0xd5] ++ List.replicate 16777173 0) =
      .error (.encoding "unable to decode program: LimitExceeded") := by
  have hdigits : bigEndian 4 16777172 = [0, 0xff, 0xff, 0xd4] := by decide
  have hdigits' : bigEndian 4 16777173 = [0, 0xff, 0xff, 0xd5] := by decide
  have hform : Wire.ProgramForm (zeros 16777172) _ := zeros_form (by decide)
  have hform' : Wire.ProgramForm (zeros 16777173) _ := zeros_form (by decide)
  rw [hdigits] at hform
  rw [hdigits'] at hform'
  constructor
  · exact (decode_eq_ok_iff _ _).2 ⟨hform, zeros_fits_iff.2 (by decide)⟩
  · refine (decode_of_form hform').trans (if_neg ?_)
    rw [zeros_fits_iff]
    decide

end Program

end MerkleStack
