/-
The longest byte strings that are decoded.  Claims are made for values: four bytes or eight
for an integer, whatever it is written in.  The shortest forms keep within the claims, but
the widest form of an integer takes one byte more than it claims.  So the limit on claims
does not bound the byte strings that are decoded; what bounds them is the limit with one
more byte for every integer, and that is reached.
-/
import MerkleStack.Proofs.WireShortest

namespace MerkleStack

namespace Wire

theorem IntegerForm.length_le_of_narrow {n : Nat} {form : Bytes}
    (hform : IntegerForm false n form) : form.length ≤ 5 := by
  cases hform with
  | eight hwide => cases hwide
  | byte | two | four => simp

theorem IntegerForm.length_le {wide : Bool} {n : Nat} {form : Bytes}
    (hform : IntegerForm wide n form) : form.length ≤ 9 := by
  cases hform <;> simp

theorem MetadataForm.length_le {metadata : Metadata} {form : Bytes}
    (hform : MetadataForm metadata form) : form.length ≤ 20 := by
  obtain ⟨hhash, hlength, hinputs, hfactor⟩ := hform
  have hhash := hhash.length_le_of_narrow
  have hlength := hlength.length_le_of_narrow
  have hinputs := hinputs.length_le_of_narrow
  have hfactor := hfactor.length_le_of_narrow
  simp only [List.length_append]
  omega

theorem OpForm.length_le {op : Op} {form : Bytes} (hform : OpForm op form) :
    form.length ≤ 23 + op.payload.length := by
  obtain ⟨hopcode, hindex, hlength⟩ := hform
  have hopcode := hopcode.length_le_of_narrow
  have hindex := hindex.length_le
  have hlength := hlength.length_le
  simp only [List.length_append]
  omega

theorem OpsForm.length_le {ops : List Op} {form : Bytes} (hform : OpsForm ops form) :
    form.length ≤ 23 * ops.length + (ops.map fun op => op.payload.length).sum := by
  induction hform with
  | nil => exact Nat.le_refl 0
  | cons hfirst _ ih =>
      have hfirst := hfirst.length_le
      simp only [List.length_append, List.length_cons, List.map_cons, List.sum_cons]
      omega

/-- No form of a program is longer than its widest one. -/
theorem ProgramForm.length_le {program : Program} {form : Bytes}
    (hform : ProgramForm program form) :
    form.length ≤
      29 + 23 * program.ops.length + (program.ops.map fun op => op.payload.length).sum := by
  obtain ⟨hmetadata, hcount, hops⟩ := hform
  have hmetadata := hmetadata.length_le
  have hcount := hcount.length_le
  have hops := hops.length_le
  simp only [List.length_append]
  omega

/-- The widest form of an integer. -/
def putWidest (wide : Bool) (n : Nat) : Bytes :=
  if wide then 0xfd :: bigEndian 8 n else 0xfc :: bigEndian 4 n

def putWidestMetadata (metadata : Metadata) : Bytes :=
  putWidest false metadata.hashId.toNat ++ putWidest false metadata.outputLength.toNat ++
    putWidest false metadata.inputCount.toNat ++
    putWidest false metadata.branchingFactor.toNat

def putWidestOp (op : Op) : Bytes :=
  putWidest false op.opcode.toNat ++ putWidest true op.index.toNat ++
    putWidest true op.payload.length ++ op.payload

theorem putWidestMetadata_form (metadata : Metadata) :
    MetadataForm metadata (putWidestMetadata metadata) :=
  .fields (.four metadata.hashId.toNat_lt) (.four metadata.outputLength.toNat_lt)
    (.four metadata.inputCount.toNat_lt) (.four metadata.branchingFactor.toNat_lt)

theorem putWidestOp_form {op : Op} (hpayload : op.payload.length < 2 ^ 64) :
    OpForm op (putWidestOp op) :=
  .fields (.four op.opcode.toNat_lt) (.eight rfl op.index.toNat_lt) (.eight rfl hpayload)

theorem length_putWidest_narrow (n : Nat) : (putWidest false n).length = 5 := by
  simp [putWidest]

theorem length_putWidest_wide (n : Nat) : (putWidest true n).length = 9 := by
  simp [putWidest]

theorem length_putWidestOp (op : Op) :
    (putWidestOp op).length = 23 + op.payload.length := by
  simp only [putWidestOp, List.length_append, length_putWidest_narrow, length_putWidest_wide]

theorem length_flatMap_putWidestOp (ops : List Op) :
    (ops.flatMap putWidestOp).length =
      23 * ops.length + (ops.map fun op => op.payload.length).sum := by
  induction ops with
  | nil => rfl
  | cons op rest ih =>
      simp only [List.flatMap_cons, List.length_append, length_putWidestOp, ih,
        List.length_cons, List.map_cons, List.sum_cons]
      omega

end Wire

namespace Program

def encodeWidest (program : Program) : Bytes :=
  Wire.putWidestMetadata program.metadata ++ Wire.putWidest true program.ops.length ++
    program.ops.flatMap Wire.putWidestOp

theorem encodeWidest_form {program : Program} (hspace : program.Addressable) :
    Wire.ProgramForm program program.encodeWidest :=
  .fields (Wire.putWidestMetadata_form program.metadata) (.eight rfl hspace.1)
    (Wire.OpsForm.flatMap fun op hop => Wire.putWidestOp_form (hspace.2 op hop))

theorem length_encodeWidest (program : Program) :
    program.encodeWidest.length =
      29 + 23 * program.ops.length + (program.ops.map fun op => op.payload.length).sum := by
  simp only [encodeWidest, Wire.putWidestMetadata, List.length_append,
    Wire.length_putWidest_narrow, Wire.length_putWidest_wide, Wire.length_flatMap_putWidestOp]
  omega

/-- A program that fits is decoded from its widest form. -/
theorem decode_encodeWidest {program : Program} (hfit : program.Fits) :
    decode program.encodeWidest = .ok program :=
  (decode_eq_ok_iff _ _).2 ⟨encodeWidest_form hfit.addressable, hfit⟩

/-- Ops without payload, and behind them one with a payload that takes what is left of the
limit. -/
def filling (before : Nat) : Program :=
  ⟨Metadata.ofFunction .sha256 0 0,
    List.replicate before (Op.popHash 0) ++
      [⟨Opcode.popHash.code, 0, List.replicate (Wire.claimLimit - 44 - 20 * before) 0⟩]⟩

theorem length_filling (before : Nat) : (filling before).ops.length = before + 1 := by
  simp [filling]

theorem payloads_filling (before : Nat) :
    (filling before).ops.map (fun op => op.payload.length) =
      List.replicate before 0 ++ [Wire.claimLimit - 44 - 20 * before] := by
  have hempty : (Op.popHash 0).payload.length = 0 := rfl
  simp only [filling, List.map_append, List.map_replicate, hempty, List.map_cons,
    List.length_replicate, List.map_nil]

/-- The payload is claimed last, when the claims for the other ops were given back. -/
theorem filling_fits {before : Nat} (hclaim : 64 + 40 * before ≤ Wire.claimLimit) :
    (filling before).Fits := by
  intro count hcount
  rw [length_filling] at hcount ⊢
  rw [Wire.claimedAfter, List.map_take, payloads_filling]
  rw [Wire.claimLimit] at hclaim ⊢
  rcases Nat.lt_or_ge before count with hlast | hearlier
  · obtain rfl : count = before + 1 := by omega
    rw [List.take_of_length_le (by simp)]
    simp only [List.sum_append, List.sum_replicate_nat, List.sum_singleton]
    omega
  · rw [List.take_append_of_le_length (by simpa using hearlier), List.take_replicate,
      List.sum_replicate_nat]
    omega

theorem length_encodeWidest_filling {before : Nat}
    (hclaim : 64 + 40 * before ≤ Wire.claimLimit) :
    (filling before).encodeWidest.length = maxEncodedBytes + 5 + 3 * (before + 1) := by
  rw [length_encodeWidest, payloads_filling, length_filling, maxEncodedBytes]
  simp only [List.sum_append, List.sum_replicate_nat, List.sum_singleton]
  omega

/-- All ops are claimed before the first one is read. -/
theorem Fits.length_ops_le {program : Program} (hfit : program.Fits) :
    program.ops.length ≤ 419429 := by
  have hclaim := hfit 0 (Nat.zero_le _)
  simp only [Wire.claimedAfter_zero] at hclaim
  omega

/-- The fields before the ops are five integers, and those of an op are three. -/
theorem Fits.length_form_le {program : Program} {form : Bytes} (hfit : program.Fits)
    (hform : Wire.ProgramForm program form) :
    form.length ≤ maxEncodedBytes + 5 + 3 * program.ops.length := by
  have hclaimed := hfit.claimed_le
  have hlength := hform.length_le
  rw [maxEncodedBytes]
  omega

/-- The integers of a program with one op, each in its widest form.  The last one is the
length of the payload. -/
def overlongFront : Bytes :=
  [0xfc, 0, 0, 0, 1, 0xfc, 0, 0, 0, 0, 0xfc, 0, 0, 0, 0, 0xfc, 0, 0, 0, 0,
    0xfd, 0, 0, 0, 0, 0, 0, 0, 1,
    0xfc, 0, 0, 0, 4, 0xfd, 0, 0, 0, 0, 0, 0, 0, 0, 0xfd, 0, 0, 0, 0, 0, 0xff, 0xff, 0xd4]

/-- A program with one op, as long as one can be. -/
def overlong : Bytes :=
  overlongFront ++ List.replicate 16777172 0

theorem overlongFront_eq :
    overlongFront =
      Wire.putWidestMetadata (Metadata.ofFunction .sha256 0 0) ++ Wire.putWidest true 1 ++
        (Wire.putWidest false 4 ++ Wire.putWidest true 0 ++ Wire.putWidest true 16777172) := by
  decide

theorem overlong_eq : overlong = (filling 0).encodeWidest := by
  have hpayload : (List.replicate (Wire.claimLimit - 44 - 20 * 0) (0 : UInt8)).length = 16777172 :=
    List.length_replicate
  rw [overlong, overlongFront_eq, encodeWidest, filling, List.replicate_zero, List.nil_append,
    List.flatMap_singleton, Wire.putWidestOp, hpayload, List.append_assoc]
  rfl

theorem decode_overlong : decode overlong = .ok (filling 0) := by
  rw [overlong_eq]
  exact decode_encodeWidest (filling_fits (by decide))

theorem length_overlong : overlong.length = 16777224 := by
  rw [overlong_eq, length_encodeWidest_filling (by decide)]
  decide

/-- All byte strings that a program is decoded from keep within the limit just if its widest
form does. -/
theorem Fits.forall_length_le_iff {program : Program} (hfit : program.Fits) :
    (∀ other, decode other = .ok program → other.length ≤ maxEncodedBytes) ↔
      29 + 23 * program.ops.length + (program.ops.map fun op => op.payload.length).sum ≤
        maxEncodedBytes := by
  constructor
  · intro hall
    rw [← length_encodeWidest]
    exact hall _ (decode_encodeWidest hfit)
  · intro hwidest other hother
    exact Nat.le_trans ((decode_eq_ok_iff other program).1 hother).1.length_le hwidest

/-- How long an accepted byte string can be.  It keeps within the limit if every integer is
written in its shortest form, and in any forms just if the widest ones do.  It exceeds the
limit by one byte for each of its integers at most, so by five bytes and three more for each
op, and with as many ops, if there are any, one byte string is as long as that. -/
theorem length_le_of_decode {bytes : Bytes} {program : Program}
    (hdecode : decode bytes = .ok program) :
    (bytes = program.encode → bytes.length ≤ maxEncodedBytes) ∧
    ((∀ other, decode other = .ok program → other.length ≤ maxEncodedBytes) ↔
      29 + 23 * program.ops.length + (program.ops.map fun op => op.payload.length).sum ≤
        maxEncodedBytes) ∧
    (program.ops.length ≤ 419429 ∧
      bytes.length ≤ maxEncodedBytes + 5 + 3 * program.ops.length) ∧
    (1 ≤ program.ops.length →
      ∃ longest filled, decode longest = .ok filled ∧
        filled.ops.length = program.ops.length ∧
        longest.length = maxEncodedBytes + 5 + 3 * program.ops.length) := by
  obtain ⟨hform, hfit⟩ := (decode_eq_ok_iff bytes program).1 hdecode
  refine ⟨?_, hfit.forall_length_le_iff, ⟨hfit.length_ops_le, hfit.length_form_le hform⟩, ?_⟩
  · rintro rfl
    exact Nat.le_trans hfit.length_encode_le hfit.claimed_le
  · intro hpos
    have hcount := hfit.length_ops_le
    obtain ⟨before, hbefore⟩ := Nat.exists_eq_add_of_le' hpos
    rw [hbefore] at hcount ⊢
    have hclaim : 64 + 40 * before ≤ Wire.claimLimit := by
      rw [Wire.claimLimit]
      omega
    exact ⟨_, _, decode_encodeWidest (filling_fits hclaim), length_filling before,
      length_encodeWidest_filling hclaim⟩

theorem length_le_of_decode_overlong :
    decode overlong = .ok (filling 0) ∧ overlong.length = 16777224 ∧
      overlong.length ≤ maxEncodedBytes + 5 + 3 * (filling 0).ops.length :=
  ⟨decode_overlong, length_overlong, (length_le_of_decode decode_overlong).2.2.1.2⟩

/-- The limit itself does not bound the byte strings that are decoded. -/
theorem maxEncodedBytes_lt_overlong :
    decode overlong = .ok (filling 0) ∧ ¬ overlong.length ≤ maxEncodedBytes := by
  refine ⟨decode_overlong, ?_⟩
  rw [length_overlong]
  decide

end Program

end MerkleStack
