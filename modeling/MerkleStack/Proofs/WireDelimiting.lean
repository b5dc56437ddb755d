/-
Readers that find their own end.  What such a reader takes is settled before the bytes
behind it are looked at: other bytes may follow, and where some of what it takes is cut off
it runs out of bytes, asking for no more than was cut off.  All readers of programs are of
this kind, since they are made from reads of single bytes and of counted bytes.
-/
import MerkleStack.Proofs.WireDecoding

namespace MerkleStack

namespace Wire

/-- A reader takes exactly some bytes from the front and returns a value, with `claimed`
bytes claimed before and `after` bytes claimed after it.  Of fewer bytes it asks for some
of those that are missing. -/
structure Takes {α : Type} (reader : Reader α) (claimed : Nat) (taken : Bytes) (value : α)
    (after : Nat) : Prop where
  read : ∀ more, reader ⟨taken ++ more, claimed⟩ = .ok (value, ⟨more, after⟩)
  cut : ∀ front missing, front ++ missing = taken → missing ≠ [] →
    ∃ additional, 1 ≤ additional ∧ additional ≤ missing.length ∧
      reader ⟨front, claimed⟩ = .error (.unexpectedEnd additional)

/-- Whenever a reader returns a value, it has taken exactly the bytes in front of what is
left. -/
def SelfDelimiting {α : Type} (reader : Reader α) : Prop :=
  ∀ ⦃cursor after : Cursor⦄ ⦃value : α⦄, reader cursor = .ok (value, after) →
    ∃ taken, cursor.rest = taken ++ after.rest ∧
      Takes reader cursor.claimed taken value after.claimed

section

variable {α β : Type} {reader : Reader α} {next : α → Reader β}

/-- A reader that takes no bytes has nothing to run out of. -/
theorem Takes.of_nil {claimed after : Nat} {value : α}
    (hread : ∀ more, reader ⟨more, claimed⟩ = .ok (value, ⟨more, after⟩)) :
    Takes reader claimed [] value after := by
  refine ⟨hread, ?_⟩
  intro front missing hnil hmissing
  exact absurd (List.append_eq_nil_iff.1 hnil).2 hmissing

theorem Takes.bind {claimed middle after : Nat} {first second : Bytes} {found : α}
    {value : β} (hfirst : Takes reader claimed first found middle)
    (hsecond : Takes (next found) middle second value after) :
    Takes (reader >>= next) claimed (first ++ second) value after := by
  constructor
  · intro more
    rw [List.append_assoc, bind_of_ok (hfirst.read _)]
    exact hsecond.read more
  · intro front missing hcut hmissing
    rcases List.append_eq_append_iff.1 hcut with
      ⟨rest, hfront, hrest⟩ | ⟨rest, hfront, hrest⟩
    · by_cases hnil : rest = []
      · rw [hnil, List.append_nil] at hfront
        rw [hnil, List.nil_append] at hrest
        obtain ⟨additional, hpos, hle, herror⟩ := hsecond.cut [] missing hrest hmissing
        have hread := hfirst.read []
        rw [List.append_nil, hfront] at hread
        exact ⟨additional, hpos, hle, (bind_of_ok hread).trans herror⟩
      · obtain ⟨additional, hpos, hle, herror⟩ := hfirst.cut front rest hfront.symm hnil
        refine ⟨additional, hpos, ?_, bind_of_error herror⟩
        rw [hrest, List.length_append]
        omega
    · obtain ⟨additional, hpos, hle, herror⟩ :=
        hsecond.cut rest missing hrest.symm hmissing
      refine ⟨additional, hpos, hle, ?_⟩
      rw [hfront, bind_of_ok (hfirst.read rest)]
      exact herror

/-- Readers one after the other find their end if each does. -/
theorem SelfDelimiting.bind (hreader : SelfDelimiting reader)
    (hnext : ∀ value, SelfDelimiting (next value)) : SelfDelimiting (reader >>= next) := by
  intro cursor after value hread
  obtain ⟨found, middle, hfound, hvalue⟩ := bind_eq_ok hread
  obtain ⟨first, hfirst, htakes⟩ := hreader hfound
  obtain ⟨second, hsecond, htakes'⟩ := hnext found hvalue
  refine ⟨first ++ second, ?_, htakes.bind htakes'⟩
  rw [hfirst, hsecond, List.append_assoc]

end

theorem selfDelimiting_pure {α : Type} (value : α) :
    SelfDelimiting (pure value : Reader α) := by
  intro cursor after found hread
  cases hread
  exact ⟨[], rfl, Takes.of_nil fun _ => rfl⟩

theorem selfDelimiting_claim (count : Nat) : SelfDelimiting (claim count) := by
  intro cursor after value hread
  by_cases hle : cursor.claimed + count ≤ claimLimit
  · rw [claim_of_le hle] at hread
    cases hread
    exact ⟨[], rfl, Takes.of_nil fun _ => claim_of_le hle⟩
  · rw [claim_of_lt (Nat.lt_of_not_le hle)] at hread
    cases hread

theorem selfDelimiting_release (count : Nat) : SelfDelimiting (release count) := by
  intro cursor after value hread
  cases hread
  exact ⟨[], rfl, Takes.of_nil fun _ => rfl⟩

theorem takes_getBytes (taken : Bytes) (claimed : Nat) :
    Takes (getBytes taken.length) claimed taken taken claimed := by
  constructor
  · intro more
    exact getBytes_append taken more claimed
  · intro front missing hcut hmissing
    have hpos := List.length_pos_iff.2 hmissing
    have hlength : taken.length = front.length + missing.length := by
      rw [← hcut, List.length_append]
    refine ⟨missing.length, hpos, Nat.le_refl _, ?_⟩
    have hshort : front.take taken.length = front := List.take_of_length_le (by omega)
    rw [getBytes]
    simp only [hshort]
    rw [if_neg (by omega), hlength, Nat.add_sub_cancel_left]

theorem selfDelimiting_getBytes (count : Nat) : SelfDelimiting (getBytes count) := by
  intro cursor after front hread
  obtain ⟨rfl, hrest⟩ := rest_of_getBytes hread
  have htakes := takes_getBytes front cursor.claimed
  have hagain := htakes.read after.rest
  rw [← hrest, hread] at hagain
  obtain ⟨_, hafter⟩ := Prod.mk.inj (Except.ok.inj hagain)
  refine ⟨front, hrest, ?_⟩
  rw [hafter]
  exact htakes

/-- An integer ends where its first byte says.  The bytes behind that byte are looked at for
the cause only, where it is refused. -/
theorem getInteger_follow {wide : Bool} {b : UInt8} {rest : Bytes} {claimed : Nat}
    {result : Nat × Cursor} (hread : getInteger wide ⟨b :: rest, claimed⟩ = .ok result) :
    ∃ follow : Reader Nat, SelfDelimiting follow ∧
      ∀ more claimed, getInteger wide ⟨b :: more, claimed⟩ = follow ⟨more, claimed⟩ := by
  rw [getInteger_cons] at hread
  cases hlead : Lead.ofByte wide b with
  | value n =>
      refine ⟨pure n, selfDelimiting_pure n, ?_⟩
      intro more claimed
      rw [getInteger_cons, hlead]
      rfl
  | width count =>
      refine ⟨getBytes count >>= fun bytes => pure (ofBigEndian bytes),
        (selfDelimiting_getBytes count).bind fun _ => selfDelimiting_pure _, ?_⟩
      intro more claimed
      rw [getInteger_cons, hlead]
  | tooWide found =>
      rw [hlead] at hread
      cases hread

theorem selfDelimiting_getInteger (wide : Bool) : SelfDelimiting (getInteger wide) := by
  intro cursor after n hread
  rcases cursor with ⟨bytes, claimed⟩
  cases bytes with
  | nil => cases hread
  | cons b rest =>
      obtain ⟨follow, hfollow, hsame⟩ := getInteger_follow hread
      rw [hsame] at hread
      obtain ⟨tail, hrest, htakes⟩ := hfollow hread
      refine ⟨b :: tail, congrArg (b :: ·) hrest, ?_, ?_⟩
      · intro more
        rw [List.cons_append, hsame]
        exact htakes.read more
      · intro front missing hcut hmissing
        rcases List.append_eq_cons_iff.1 hcut with ⟨rfl, rfl⟩ | ⟨front, rfl, htail⟩
        · exact ⟨1, Nat.le_refl 1, Nat.succ_pos _, rfl⟩
        · obtain ⟨additional, hpos, hle, herror⟩ := htakes.cut front missing htail.symm hmissing
          exact ⟨additional, hpos, hle, (hsame front claimed).trans herror⟩

theorem selfDelimiting_getU32 : SelfDelimiting getU32 :=
  (selfDelimiting_claim 4).bind fun _ =>
    (selfDelimiting_getInteger false).bind fun _ => selfDelimiting_pure _

theorem selfDelimiting_getU64 : SelfDelimiting getU64 :=
  (selfDelimiting_claim 8).bind fun _ =>
    (selfDelimiting_getInteger true).bind fun _ => selfDelimiting_pure _

theorem selfDelimiting_getMetadata : SelfDelimiting getMetadata :=
  selfDelimiting_getU32.bind fun _ => selfDelimiting_getU32.bind fun _ =>
    selfDelimiting_getU32.bind fun _ => selfDelimiting_getU32.bind fun _ =>
      selfDelimiting_pure _

theorem selfDelimiting_getPayload : SelfDelimiting getPayload :=
  selfDelimiting_getU64.bind fun length =>
    (selfDelimiting_claim length.toNat).bind fun _ => selfDelimiting_getBytes length.toNat

theorem selfDelimiting_getOp : SelfDelimiting getOp :=
  (selfDelimiting_release opClaim).bind fun _ => selfDelimiting_getU32.bind fun _ =>
    selfDelimiting_getU64.bind fun _ => selfDelimiting_getPayload.bind fun _ =>
      selfDelimiting_pure _

theorem selfDelimiting_getOps (count : Nat) (before : List Op) :
    SelfDelimiting (getOps count before) := by
  induction count generalizing before with
  | zero => exact selfDelimiting_pure before.reverse
  | succ count ih => exact selfDelimiting_getOp.bind fun op => ih (op :: before)

theorem selfDelimiting_getProgram : SelfDelimiting getProgram :=
  selfDelimiting_getMetadata.bind fun _ => selfDelimiting_getU64.bind fun count =>
    (selfDelimiting_claim _).bind fun _ =>
      (selfDelimiting_getOps count.toNat []).bind fun _ => selfDelimiting_pure _

/-- Bytes that a program was read from were taken as a whole. -/
theorem takes_of_ofBytes {bytes : Bytes} {program : Program}
    (hbytes : ofBytes bytes = .ok program) :
    ∃ claimed, Takes getProgram 0 bytes program claimed := by
  obtain ⟨claimed, hread⟩ := getProgram_of_ofBytes hbytes
  obtain ⟨taken, hrest, htakes⟩ := selfDelimiting_getProgram hread
  simp only [List.append_nil] at hrest
  rw [hrest]
  exact ⟨claimed, htakes⟩

theorem ofBytes_of_error {bytes : Bytes} {cause : DecodeError}
    (hread : getProgram ⟨bytes, 0⟩ = .error cause) : ofBytes bytes = .error cause := by
  unfold ofBytes
  rw [hread]
  rfl

theorem ofBytes_of_rest {bytes rest : Bytes} {program : Program} {claimed : Nat}
    (hread : getProgram ⟨bytes, 0⟩ = .ok (program, ⟨rest, claimed⟩)) (hrest : rest ≠ []) :
    ofBytes bytes = .error (.trailing rest.length) := by
  unfold ofBytes
  rw [hread]
  exact if_neg (mt List.isEmpty_iff.1 hrest)

end Wire

namespace Program

theorem decode_of_error {bytes : Bytes} {cause : Wire.DecodeError}
    (hbytes : Wire.ofBytes bytes = .error cause) :
    decode bytes = .error (.encoding ("unable to decode program: " ++ cause.text)) := by
  rw [decode, hbytes]

/-- No accepted byte string goes on as another one.  One that is cut off anywhere is refused
for its end, which asks for some of the bytes that were cut off, and one that is padded is
refused for exactly the bytes that were added. -/
theorem decode_cut_or_padded {bytes : Bytes} {program : Program}
    (hdecode : decode bytes = .ok program) :
    (∀ front missing, front ++ missing = bytes → missing ≠ [] →
      ∃ additional, 1 ≤ additional ∧ additional ≤ missing.length ∧
        decode front = .error (.encoding ("unable to decode program: " ++
          ("UnexpectedEnd \x7b additional: " ++ additional.repr ++ " \x7d")))) ∧
    ∀ padding, padding ≠ [] →
      decode (bytes ++ padding) = .error (.encoding ("unable to decode program: " ++
        (padding.length.repr ++ " trailing bytes"))) := by
  obtain ⟨claimed, htakes⟩ := Wire.takes_of_ofBytes (ofBytes_of_decode hdecode)
  constructor
  · intro front missing hcut hmissing
    obtain ⟨additional, hpos, hle, herror⟩ := htakes.cut front missing hcut hmissing
    exact ⟨additional, hpos, hle, decode_of_error (Wire.ofBytes_of_error herror)⟩
  · intro padding hpadding
    exact decode_of_error (Wire.ofBytes_of_rest (htakes.read padding) hpadding)

/-- A program of one op, with its hash identifier written wider than it needs to be, loses
the last byte of its payload or gets two more bytes. -/
theorem decode_cut_or_padded_payload :
    let bytes : Bytes := [0xfb, 0, 1, 0, 0, 2, 1, 2, 0, 2, 9, 9]
    decode bytes = .ok ⟨Metadata.ofFunction .sha256 0 2, [Op.pushBytes [9, 9]]⟩ ∧
      decode [0xfb, 0, 1, 0, 0, 2, 1, 2, 0, 2, 9] = .error (.encoding
        "unable to decode program: UnexpectedEnd \x7b additional: 1 \x7d") ∧
      decode (bytes ++ [1, 2]) = .error (.encoding
        "unable to decode program: 2 trailing bytes") := by
  intro bytes
  have hdecode : decode bytes = .ok ⟨Metadata.ofFunction .sha256 0 2, [Op.pushBytes [9, 9]]⟩ := by
    decide
  obtain ⟨hcut, hpadded⟩ := decode_cut_or_padded hdecode
  obtain ⟨additional, hpos, hle, herror⟩ :=
    hcut [0xfb, 0, 1, 0, 0, 2, 1, 2, 0, 2, 9] [9] rfl (List.cons_ne_nil 9 [])
  obtain rfl : additional = 1 := Nat.le_antisymm hle hpos
  exact ⟨hdecode, herror, hpadded [1, 2] (List.cons_ne_nil 1 [2])⟩

end Program

end MerkleStack
