/-
The forms of programs on the wire.  An integer has a form for each width that holds
it, so one program has many forms; what a reader takes from the front of its bytes is
one of the forms of what it returns.
-/
import Mathlib
import MerkleStack.Wire.Program

namespace MerkleStack

/-- A number is what its written form spells, if the form has room for it. -/
theorem ofLittleEndian_littleEndian {width n : Nat} (hn : n < 256 ^ width) :
    ofLittleEndian (littleEndian width n) = n := by
  induction width generalizing n with
  | zero =>
      rw [Nat.pow_zero, Nat.lt_one_iff] at hn
      rw [hn]
      rfl
  | succ width ih =>
      have hrest : n / 256 < 256 ^ width := by
        rw [Nat.pow_succ] at hn
        exact Nat.div_lt_of_lt_mul (Nat.mul_comm _ 256 ▸ hn)
      have hlow : (UInt8.ofNat n).toNat = n % 256 := rfl
      rw [littleEndian, ofLittleEndian, ih hrest, hlow, Nat.mod_add_div]

theorem ofLittleEndian_lt (bytes : Bytes) : ofLittleEndian bytes < 256 ^ bytes.length := by
  induction bytes with
  | nil => exact Nat.one_pos
  | cons b rest ih =>
      have hb : b.toNat < 256 := b.toNat_lt
      rw [ofLittleEndian, List.length_cons, Nat.pow_succ]
      omega

theorem ofBigEndian_bigEndian {width n : Nat} (hn : n < 256 ^ width) :
    ofBigEndian (bigEndian width n) = n := by
  rw [ofBigEndian, bigEndian, List.reverse_reverse, ofLittleEndian_littleEndian hn]

theorem ofBigEndian_lt (bytes : Bytes) : ofBigEndian bytes < 256 ^ bytes.length := by
  rw [ofBigEndian, ← List.length_reverse]
  exact ofLittleEndian_lt bytes.reverse

namespace Wire

/-- Forms of a number in a field of four bytes, or of eight if `wide`. -/
inductive IntegerForm (wide : Bool) (n : Nat) : Bytes → Prop
  | byte (hn : n < 251) : IntegerForm wide n [UInt8.ofNat n]
  | two (hn : n < 2 ^ 16) : IntegerForm wide n (0xfb :: bigEndian 2 n)
  | four (hn : n < 2 ^ 32) : IntegerForm wide n (0xfc :: bigEndian 4 n)
  | eight (hwide : wide = true) (hn : n < 2 ^ 64) :
      IntegerForm wide n (0xfd :: bigEndian 8 n)

/-- Forms of the metadata. -/
inductive MetadataForm (metadata : Metadata) : Bytes → Prop
  | fields {hashId outputLength inputCount branchingFactor : Bytes}
      (hhash : IntegerForm false metadata.hashId.toNat hashId)
      (hlength : IntegerForm false metadata.outputLength.toNat outputLength)
      (hinputs : IntegerForm false metadata.inputCount.toNat inputCount)
      (hfactor : IntegerForm false metadata.branchingFactor.toNat branchingFactor) :
      MetadataForm metadata (hashId ++ outputLength ++ inputCount ++ branchingFactor)

/-- Forms of an op. -/
inductive OpForm (op : Op) : Bytes → Prop
  | fields {opcode index length : Bytes}
      (hopcode : IntegerForm false op.opcode.toNat opcode)
      (hindex : IntegerForm true op.index.toNat index)
      (hlength : IntegerForm true op.payload.length length) :
      OpForm op (opcode ++ index ++ length ++ op.payload)

/-- Forms of ops that follow each other. -/
inductive OpsForm : List Op → Bytes → Prop
  | nil : OpsForm [] []
  | cons {op : Op} {ops : List Op} {first rest : Bytes}
      (hfirst : OpForm op first) (hrest : OpsForm ops rest) :
      OpsForm (op :: ops) (first ++ rest)

/-- Forms of a program. -/
inductive ProgramForm (program : Program) : Bytes → Prop
  | fields {metadata count ops : Bytes}
      (hmetadata : MetadataForm program.metadata metadata)
      (hcount : IntegerForm true program.ops.length count)
      (hops : OpsForm program.ops ops) :
      ProgramForm program (metadata ++ count ++ ops)

/-- What `reader` takes from the front of its bytes is a form of what it returns. -/
def Reads {α : Type} (reader : Reader α) (Form : α → Bytes → Prop) : Prop :=
  ∀ ⦃cursor after : Cursor⦄ ⦃value : α⦄, reader cursor = .ok (value, after) →
    ∃ form, Form value form ∧ cursor.rest = form ++ after.rest

theorem IntegerForm.lt {wide : Bool} {n : Nat} {form : Bytes}
    (hform : IntegerForm wide n form) : n < 2 ^ 64 := by
  cases hform <;> omega

theorem IntegerForm.lt_of_narrow {n : Nat} {form : Bytes}
    (hform : IntegerForm false n form) : n < 2 ^ 32 := by
  cases hform with
  | eight hwide => exact absurd hwide (by decide)
  | byte | two | four => omega

theorem Lead.ofByte_ofNat {wide : Bool} {n : Nat} (hn : n < 251) :
    Lead.ofByte wide (UInt8.ofNat n) = .value n := by
  have hvalue : (UInt8.ofNat n).toNat = n := by
    simp only [UInt8.toNat_ofNat']
    omega
  have hlt : UInt8.ofNat n < 0xfb := by
    rw [UInt8.lt_iff_toNat_lt, hvalue]
    exact hn
  simp only [ofByte, if_pos hlt, hvalue]

theorem Lead.ofByte_eq_value {wide : Bool} {b : UInt8} {n : Nat}
    (hlead : Lead.ofByte wide b = .value n) : n < 251 ∧ b = UInt8.ofNat n := by
  unfold ofByte at hlead
  split_ifs at hlead with hlt
  cases hlead
  exact ⟨UInt8.lt_iff_toNat_lt.1 hlt, UInt8.ofNat_toNat.symm⟩

/-- A tag that fits the field and the bytes it announces are a form. -/
theorem IntegerForm.of_width {wide : Bool} {b : UInt8} {n width : Nat}
    (hlead : Lead.ofByte wide b = .width width) (hn : n < 256 ^ width) :
    IntegerForm wide n (b :: bigEndian width n) := by
  unfold Lead.ofByte at hlead
  split_ifs at hlead with _ htwo hfour height hwide
  · cases hlead
    rw [htwo]
    exact .two hn
  · cases hlead
    rw [hfour]
    exact .four hn
  · cases hlead
    rw [height]
    exact .eight hwide hn

theorem getInteger_cons (wide : Bool) (b : UInt8) (rest : Bytes) (claimed : Nat) :
    getInteger wide ⟨b :: rest, claimed⟩ =
      match Lead.ofByte wide b with
      | .value n => .ok (n, ⟨rest, claimed⟩)
      | .width count => (return ofBigEndian (← getBytes count) : Reader Nat) ⟨rest, claimed⟩
      | .tooWide found =>
          .error (.invalidInteger (expectedType wide (b :: rest)) found) := by
  have hget : (get : Reader Cursor) ⟨b :: rest, claimed⟩ =
      .ok (⟨b :: rest, claimed⟩, ⟨b :: rest, claimed⟩) := rfl
  have hbyte : getByte ⟨b :: rest, claimed⟩ = .ok (b, ⟨rest, claimed⟩) := rfl
  unfold getInteger
  rw [bind_of_ok hget, bind_of_ok hbyte]
  cases Lead.ofByte wide b <;> rfl

theorem getInteger_reads (wide : Bool) : Reads (getInteger wide) (IntegerForm wide) := by
  intro cursor after n hread
  rcases cursor with ⟨bytes, claimed⟩
  cases bytes with
  | nil => cases hread
  | cons b rest =>
      rw [getInteger_cons] at hread
      split at hread
      · case h_1 value hlead =>
          cases hread
          rcases Lead.ofByte_eq_value hlead with ⟨hn, rfl⟩
          exact ⟨_, .byte hn, rfl⟩
      · case h_2 count hlead =>
          rcases bind_eq_ok hread with ⟨front, middle, hbytes, hreturn⟩
          cases hreturn
          rcases rest_of_getBytes hbytes with ⟨rfl, hrest⟩
          have hform := IntegerForm.of_width hlead (ofBigEndian_lt front)
          rw [bigEndian_ofBigEndian] at hform
          refine ⟨_, hform, ?_⟩
          simp only [List.cons_append, ← hrest]
      · cases hread

theorem Reads.after_claim {α : Type} {reader : Reader α} {Form : α → Bytes → Prop}
    (count : Nat) (hreads : Reads reader Form) :
    Reads (claim count >>= fun _ => reader) Form := by
  intro cursor after value hread
  rcases bind_eq_ok hread with ⟨_, middle, hclaim, hvalue⟩
  rcases hreads hvalue with ⟨form, hform, hrest⟩
  exact ⟨form, hform, (rest_of_claim hclaim).symm.trans hrest⟩

/-- What a reader makes of a value has the forms of that value. -/
theorem Reads.map {α β : Type} {reader : Reader α} {First : α → Bytes → Prop}
    {Second : β → Bytes → Prop} {convert : α → β} (hreads : Reads reader First)
    (hforms : ∀ value form, First value form → Second (convert value) form) :
    Reads (reader >>= fun value => pure (convert value)) Second := by
  intro cursor after result hread
  rcases bind_eq_ok hread with ⟨value, middle, hvalue, hreturn⟩
  cases hreturn
  rcases hreads hvalue with ⟨form, hform, hrest⟩
  exact ⟨form, hforms value form hform, hrest⟩

theorem getU32_reads : Reads getU32 fun value => IntegerForm false value.toNat := by
  apply Reads.after_claim
  apply (getInteger_reads false).map
  intro n form hform
  simpa only [UInt32.toNat_ofNat_of_lt' hform.lt_of_narrow] using hform

theorem getU64_reads : Reads getU64 fun value => IntegerForm true value.toNat := by
  apply Reads.after_claim
  apply (getInteger_reads true).map
  intro n form hform
  simpa only [UInt64.toNat_ofNat_of_lt' hform.lt] using hform

theorem getMetadata_reads : Reads getMetadata MetadataForm := by
  intro cursor after metadata hread
  rcases bind_eq_ok hread with ⟨hashId, _, hhash, hread⟩
  rcases bind_eq_ok hread with ⟨outputLength, _, hlength, hread⟩
  rcases bind_eq_ok hread with ⟨inputCount, _, hinputs, hread⟩
  rcases bind_eq_ok hread with ⟨branchingFactor, _, hfactor, hreturn⟩
  cases hreturn
  rcases getU32_reads hhash with ⟨hashForm, hhash, hafterHash⟩
  rcases getU32_reads hlength with ⟨lengthForm, hlength, hafterLength⟩
  rcases getU32_reads hinputs with ⟨inputsForm, hinputs, hafterInputs⟩
  rcases getU32_reads hfactor with ⟨factorForm, hfactor, hafterFactor⟩
  refine ⟨_, .fields hhash hlength hinputs hfactor, ?_⟩
  simp only [hafterHash, hafterLength, hafterInputs, hafterFactor, List.append_assoc]

theorem getPayload_reads : Reads getPayload fun payload form =>
    ∃ length, IntegerForm true payload.length length ∧ form = length ++ payload := by
  intro cursor after payload hread
  rcases bind_eq_ok hread with ⟨length, _, hlength, hread⟩
  rcases bind_eq_ok hread with ⟨_, _, hclaim, hbytes⟩
  rcases getU64_reads hlength with ⟨lengthForm, hlength, hafterLength⟩
  rcases rest_of_getBytes hbytes with ⟨hcount, hafterPayload⟩
  refine ⟨_, ⟨lengthForm, hcount ▸ hlength, rfl⟩, ?_⟩
  simp only [hafterLength, ← rest_of_claim hclaim, hafterPayload, List.append_assoc]

theorem getOp_reads : Reads getOp OpForm := by
  intro cursor after op hread
  rcases bind_eq_ok hread with ⟨_, _, hrelease, hread⟩
  rcases bind_eq_ok hread with ⟨opcode, _, hopcode, hread⟩
  rcases bind_eq_ok hread with ⟨index, _, hindex, hread⟩
  rcases bind_eq_ok hread with ⟨payload, _, hpayload, hreturn⟩
  cases hrelease
  cases hreturn
  rcases getU32_reads hopcode with ⟨opcodeForm, hopcode, hafterOpcode⟩
  rcases getU64_reads hindex with ⟨indexForm, hindex, hafterIndex⟩
  rcases getPayload_reads hpayload with ⟨_, ⟨lengthForm, hlength, rfl⟩, hafterPayload⟩
  refine ⟨_, .fields hopcode hindex hlength, ?_⟩
  change cursor.rest = _ at hafterOpcode
  simp only [hafterOpcode, hafterIndex, hafterPayload, List.append_assoc]

theorem getOps_reads (count : Nat) (before : List Op) :
    Reads (getOps count before) fun all form =>
      ∃ ops, ops.length = count ∧ all = before.reverse ++ ops ∧ OpsForm ops form := by
  induction count generalizing before with
  | zero =>
      intro cursor after all hread
      cases hread
      exact ⟨[], ⟨[], rfl, (List.append_nil _).symm, .nil⟩, rfl⟩
  | succ count ih =>
      intro cursor after all hread
      rcases bind_eq_ok hread with ⟨op, _, hop, hread⟩
      rcases getOp_reads hop with ⟨first, hfirst, hafterFirst⟩
      rcases ih (op :: before) hread with ⟨rest, ⟨ops, hcount, rfl, hops⟩, hafterRest⟩
      refine ⟨_, ⟨op :: ops, ?_, ?_, .cons hfirst hops⟩, ?_⟩
      · simp only [List.length_cons, hcount]
      · simp only [List.reverse_cons, List.append_assoc, List.singleton_append]
      · simp only [hafterFirst, hafterRest, List.append_assoc]

theorem getProgram_reads : Reads getProgram ProgramForm := by
  intro cursor after program hread
  rcases bind_eq_ok hread with ⟨metadata, _, hmetadata, hread⟩
  rcases bind_eq_ok hread with ⟨count, _, hcount, hread⟩
  rcases bind_eq_ok hread with ⟨_, _, hclaim, hread⟩
  rcases bind_eq_ok hread with ⟨all, _, hops, hreturn⟩
  cases hreturn
  rcases getMetadata_reads hmetadata with ⟨metadataForm, hmetadata, hafterMetadata⟩
  rcases getU64_reads hcount with ⟨countForm, hcount, hafterCount⟩
  rcases getOps_reads _ _ hops with ⟨opsForm, ⟨ops, hlength, rfl, hops⟩, hafterOps⟩
  refine ⟨_, .fields hmetadata (hlength ▸ hcount) hops, ?_⟩
  simp only [hafterMetadata, hafterCount, ← rest_of_claim hclaim, hafterOps,
    List.append_assoc]

end Wire

end MerkleStack
