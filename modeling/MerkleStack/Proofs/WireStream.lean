/-
Encoded programs in a stream of bytes.  A form tells its value and where it ends, whatever
bytes follow it: each integer by its first byte, an op by the length of its payload, and a
program by the number of its ops.  Nothing is claimed here, so this holds as well for
programs that are too large to be decoded.
-/
import MerkleStack.Proofs.WireRoundTrip

namespace MerkleStack

namespace Wire

variable {form form' rest rest' : Bytes}

theorem IntegerForm.append_inj {wide : Bool} {n m : Nat} (hform : IntegerForm wide n form)
    (hform' : IntegerForm wide m form') (heq : form ++ rest = form' ++ rest') :
    n = m ∧ rest = rest' := by
  have hread := getInteger_of_form rest 0 hform
  have hread' := getInteger_of_form rest' 0 hform'
  rw [heq, hread'] at hread
  simp only [Except.ok.injEq, Prod.mk.injEq, Cursor.mk.injEq, and_true] at hread
  exact ⟨hread.1.symm, hread.2.symm⟩

theorem MetadataForm.append_inj {metadata other : Metadata} (hform : MetadataForm metadata form)
    (hform' : MetadataForm other form') (heq : form ++ rest = form' ++ rest') :
    metadata = other ∧ rest = rest' := by
  obtain ⟨hhash, hlength, hinputs, hfactor⟩ := hform
  obtain ⟨hhash', hlength', hinputs', hfactor'⟩ := hform'
  simp only [List.append_assoc] at heq
  obtain ⟨hhashId, heq⟩ := hhash.append_inj hhash' heq
  obtain ⟨houtputLength, heq⟩ := hlength.append_inj hlength' heq
  obtain ⟨hinputCount, heq⟩ := hinputs.append_inj hinputs' heq
  obtain ⟨hbranchingFactor, heq⟩ := hfactor.append_inj hfactor' heq
  rcases metadata with ⟨hashId, outputLength, inputCount, branchingFactor⟩
  rcases other with ⟨hashId', outputLength', inputCount', branchingFactor'⟩
  simp only [UInt32.toNat_inj] at hhashId houtputLength hinputCount hbranchingFactor
  refine ⟨?_, heq⟩
  simp only [hhashId, houtputLength, hinputCount, hbranchingFactor]

/-- The payloads have the same length, so they end in the same place. -/
theorem OpForm.append_inj {op other : Op} (hform : OpForm op form) (hform' : OpForm other form')
    (heq : form ++ rest = form' ++ rest') : op = other ∧ rest = rest' := by
  obtain ⟨hopcode, hindex, hlength⟩ := hform
  obtain ⟨hopcode', hindex', hlength'⟩ := hform'
  simp only [List.append_assoc] at heq
  obtain ⟨hopcode, heq⟩ := hopcode.append_inj hopcode' heq
  obtain ⟨hindex, heq⟩ := hindex.append_inj hindex' heq
  obtain ⟨hlength, heq⟩ := hlength.append_inj hlength' heq
  obtain ⟨hpayload, hbehind⟩ := List.append_inj heq hlength
  rcases op with ⟨opcode, index, payload⟩
  rcases other with ⟨opcode', index', payload'⟩
  simp only [UInt32.toNat_inj, UInt64.toNat_inj] at hopcode hindex hpayload
  refine ⟨?_, hbehind⟩
  simp only [hopcode, hindex, hpayload]

/-- Two lists of as many ops are read in lockstep. -/
theorem OpsForm.append_inj {ops others : List Op} (hform : OpsForm ops form)
    (hform' : OpsForm others form') (hcount : ops.length = others.length)
    (heq : form ++ rest = form' ++ rest') : ops = others ∧ rest = rest' := by
  induction hform generalizing others form' with
  | nil =>
      cases hform' with
      | nil => exact ⟨rfl, heq⟩
      | cons _ _ => cases hcount
  | cons hfirst _ ih =>
      cases hform' with
      | nil => cases hcount
      | cons hfirst' hrest' =>
          simp only [List.append_assoc] at heq
          obtain ⟨rfl, heq⟩ := hfirst.append_inj hfirst' heq
          obtain ⟨rfl, hbehind⟩ := ih hrest' (Nat.succ.inj hcount) heq
          exact ⟨rfl, hbehind⟩

theorem ProgramForm.append_inj {program other : Program} (hform : ProgramForm program form)
    (hform' : ProgramForm other form') (heq : form ++ rest = form' ++ rest') :
    program = other ∧ rest = rest' := by
  obtain ⟨hmetadata, hcount, hops⟩ := hform
  obtain ⟨hmetadata', hcount', hops'⟩ := hform'
  simp only [List.append_assoc] at heq
  obtain ⟨hmetadata, heq⟩ := hmetadata.append_inj hmetadata' heq
  obtain ⟨hcount, heq⟩ := hcount.append_inj hcount' heq
  obtain ⟨hops, heq⟩ := hops.append_inj hops' hcount heq
  rcases program with ⟨metadata, ops⟩
  rcases other with ⟨metadata', ops'⟩
  refine ⟨?_, heq⟩
  simp only at hmetadata hops
  simp only [hmetadata, hops]

end Wire

namespace Program

/-- Encodings are uniquely decodable in a stream of bytes.  What a stream begins with and
what is left of it behind that can be told in one way only, also for programs that exceed
the limit of the decoder. -/
theorem encode_append_eq_iff {first second : Program} (hfirst : first.Addressable)
    (hsecond : second.Addressable) (rest rest' : Bytes) :
    first.encode ++ rest = second.encode ++ rest' ↔ first = second ∧ rest = rest' := by
  constructor
  · intro heq
    exact (encode_form hfirst).append_inj (encode_form hsecond) heq
  · rintro ⟨rfl, rfl⟩
    rfl

theorem repeating_addressable {count : Nat} (hcount : count < 2 ^ 64) :
    (repeating count).Addressable := by
  constructor
  · rw [repeating, List.length_replicate]
    exact hcount
  · intro op hop
    rw [List.eq_of_mem_replicate hop]
    decide

/-- Two programs that the decoder refuses.  With the bytes of another op behind it the first
one is as long as the second one, and differs from it in its number of ops only. -/
theorem encode_append_repeating :
    decode (repeating 419430).encode =
        .error (.encoding "unable to decode program: LimitExceeded") ∧
      (repeating 419430).encode ++ [0, 0, 0] ≠ (repeating 419431).encode ++ [] := by
  have hfirst := repeating_addressable (show 419430 < 2 ^ 64 by decide)
  have hsecond := repeating_addressable (show 419431 < 2 ^ 64 by decide)
  constructor
  · rw [decode_of_form (encode_form hfirst), if_neg]
    rw [repeating_fits_iff]
    decide
  · intro heq
    obtain ⟨hsame, _⟩ := (encode_append_eq_iff hfirst hsecond [0, 0, 0] []).1 heq
    have hcount := congrArg (fun program => program.ops.length) hsame
    simp only [repeating, List.length_replicate] at hcount
    omega

end Program

end MerkleStack
