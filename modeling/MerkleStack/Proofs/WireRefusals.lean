/-
Refusals when more bytes arrive.  A reader refuses bytes for what it has read of them: a
claim beyond the limit, a tag that does not fit its field, or an end that comes too early.
Bytes that follow do not lift the first two, and where they are too few they only lower the
number of bytes that are missing.  All readers of programs are of this kind, since a part
that is read for good is read alike when more bytes follow.
-/
import MerkleStack.Proofs.Text
import MerkleStack.Proofs.WireDelimiting

namespace MerkleStack

namespace Wire

theorem IntegerType.text_inj {type other : IntegerType} (heq : type.text = other.text) :
    type = other := by
  revert heq
  cases type <;> cases other <;> decide

theorem IntegerType.consists_text (type : IntegerType) : Consists (· != ',') type.text := by
  cases type <;> simp [Consists, IntegerType.text]

namespace DecodeError

theorem text_limitExceeded : limitExceeded.text = "LimitExceeded" := rfl

theorem text_invalidInteger (expected found : IntegerType) :
    (invalidInteger expected found).text =
      "InvalidIntegerType \x7b expected: " ++
        (expected.text ++ (", found: " ++ (found.text ++ " \x7d"))) := by
  simp only [← String.append_assoc]
  rfl

theorem text_unexpectedEnd (additional : Nat) :
    (unexpectedEnd additional).text =
      "UnexpectedEnd \x7b additional: " ++ (additional.repr ++ " \x7d") := by
  simp only [← String.append_assoc]
  rfl

theorem text_trailing (count : Nat) :
    (trailing count).text = count.repr ++ " trailing bytes" := rfl

/-- The letter that the text of a cause begins with.  Where bytes are left over it is a
number that the text begins with. -/
def initial? : DecodeError → Option Char
  | limitExceeded => some 'L'
  | invalidInteger _ _ => some 'I'
  | unexpectedEnd _ => some 'U'
  | trailing _ => none

theorem initial?_eq (cause : DecodeError) :
    cause.initial? = cause.text.toList.head?.filter fun c => !c.isDigit := by
  cases cause with
  | limitExceeded => simp [initial?, text_limitExceeded, Option.filter_some]
  | invalidInteger expected found =>
      simp [initial?, text_invalidInteger, Option.filter_some]
  | unexpectedEnd additional => simp [initial?, text_unexpectedEnd, Option.filter_some]
  | trailing count =>
      have hsome : count.repr.toList ≠ [] := by simp
      obtain ⟨c, rest, hrepr⟩ := List.exists_cons_of_ne_nil hsome
      have hc : c.isDigit = true := consists_repr count c (by simp [hrepr])
      simp [initial?, text_trailing, hrepr, hc, Option.filter_some]

/-- No two causes have the same text. -/
theorem text_inj {cause other : DecodeError} (heq : cause.text = other.text) :
    cause = other := by
  have hinitial : cause.initial? = other.initial? := by
    rw [initial?_eq, initial?_eq, heq]
  cases cause with
  | limitExceeded =>
      cases other with
      | limitExceeded => rfl
      | _ => cases hinitial
  | invalidInteger expected found =>
      cases other with
      | invalidInteger expected' found' =>
          rw [text_invalidInteger, text_invalidInteger, String.append_right_inj] at heq
          obtain ⟨hexpected, hfound⟩ := eq_of_append_eq expected.consists_text
            expected'.consists_text (by simp [Stops]) (by simp [Stops]) heq
          rw [String.append_right_inj, String.append_left_inj] at hfound
          rw [IntegerType.text_inj hexpected, IntegerType.text_inj hfound]
      | _ => cases hinitial
  | unexpectedEnd additional =>
      cases other with
      | unexpectedEnd additional' =>
          simp only [text_unexpectedEnd, String.append_right_inj, String.append_left_inj] at heq
          rw [Nat.repr_injective heq]
      | _ => cases hinitial
  | trailing count =>
      cases other with
      | trailing count' =>
          simp only [text_trailing, String.append_left_inj] at heq
          rw [Nat.repr_injective heq]
      | _ => cases hinitial

end DecodeError

/-- A refusal of some bytes that is decided by what was read of them, and what comes of it
when other bytes follow. -/
inductive Persists {α : Type} (reader : Reader α) (claimed : Nat) (bytes : Bytes) :
    DecodeError → Prop
  /-- A claim came before the read that it covers. -/
  | limit (hmore : ∀ more, reader ⟨bytes ++ more, claimed⟩ = .error .limitExceeded) :
      Persists reader claimed bytes .limitExceeded
  /-- One byte was asked for, and that byte is a tag that does not fit. -/
  | tag {front behind : Bytes} {tag : UInt8} {wide : Bool} {found : IntegerType}
      (hbytes : bytes = front ++ tag :: behind)
      (hfront : reader ⟨front, claimed⟩ = .error (.unexpectedEnd 1))
      (hbehind : ∀ more, reader ⟨front ++ tag :: more, claimed⟩ =
        .error (.invalidInteger (expectedType wide (tag :: more)) found)) :
      Persists reader claimed bytes
        (.invalidInteger (expectedType wide (tag :: behind)) found)
  /-- Bytes are missing, and some of them arrive. -/
  | missing {additional : Nat}
      (hmore : ∀ more, more.length < additional →
        reader ⟨bytes ++ more, claimed⟩ = .error (.unexpectedEnd (additional - more.length))) :
      Persists reader claimed bytes (.unexpectedEnd additional)

/-- Whatever a reader refuses bytes for, its refusal persists. -/
def Persistent {α : Type} (reader : Reader α) : Prop :=
  ∀ ⦃cursor : Cursor⦄ ⦃cause : DecodeError⦄, reader cursor = .error cause →
    Persists reader cursor.claimed cursor.rest cause

section

variable {α β : Type} {reader : Reader α} {next : α → Reader β}

/-- A refusal is handed on by a reader that takes some bytes first and then refuses what the
other one refuses. -/
theorem Persists.after {other : Reader β} {claimed before : Nat} {bytes : Bytes}
    {cause : DecodeError} (hpersists : Persists reader claimed bytes cause) (taken : Bytes)
    (hother : ∀ rest cause, reader ⟨rest, claimed⟩ = .error cause →
      other ⟨taken ++ rest, before⟩ = .error cause) :
    Persists other before (taken ++ bytes) cause := by
  cases hpersists with
  | limit hmore =>
      refine .limit ?_
      intro more
      rw [List.append_assoc]
      exact hother _ _ (hmore more)
  | tag hbytes hfront hbehind =>
      refine .tag (by rw [hbytes, ← List.append_assoc]) (hother _ _ hfront) ?_
      intro more
      rw [List.append_assoc]
      exact hother _ _ (hbehind more)
  | missing hmore =>
      refine .missing ?_
      intro more hlength
      rw [List.append_assoc]
      exact hother _ _ (hmore more hlength)

/-- Readers one after the other: the first one refuses, or it has read its part for good. -/
theorem Persistent.bind (hreader : Persistent reader) (hends : SelfDelimiting reader)
    (hnext : ∀ value, Persistent (next value)) : Persistent (reader >>= next) := by
  intro cursor cause herror
  cases hread : reader cursor with
  | error found =>
      rw [bind_of_error hread] at herror
      cases herror
      exact (hreader hread).after [] fun rest cause => bind_of_error
  | ok pair =>
      obtain ⟨value, middle⟩ := pair
      obtain ⟨taken, hrest, htakes⟩ := hends hread
      rw [bind_of_ok hread] at herror
      rw [hrest]
      refine (hnext value herror).after taken ?_
      intro rest cause hrefused
      rw [bind_of_ok (htakes.read rest)]
      exact hrefused

end

theorem persistent_pure {α : Type} (value : α) : Persistent (pure value : Reader α) := by
  intro cursor cause herror
  cases herror

theorem persistent_claim (count : Nat) : Persistent (claim count) := by
  intro cursor cause herror
  by_cases hle : cursor.claimed + count ≤ claimLimit
  · rw [claim_of_le hle] at herror
    cases herror
  · have hlt := Nat.lt_of_not_le hle
    rw [claim_of_lt hlt] at herror
    cases herror
    exact .limit fun more => claim_of_lt hlt

theorem persistent_release (count : Nat) : Persistent (release count) := by
  intro cursor cause herror
  cases herror

theorem getBytes_of_length_lt {count : Nat} {rest : Bytes} (hlt : rest.length < count)
    (claimed : Nat) :
    getBytes count ⟨rest, claimed⟩ = .error (.unexpectedEnd (count - rest.length)) := by
  have htake : rest.take count = rest := List.take_of_length_le (Nat.le_of_lt hlt)
  simp only [getBytes, htake]
  exact if_neg (Nat.ne_of_lt hlt)

theorem persistent_getBytes (count : Nat) : Persistent (getBytes count) := by
  intro cursor cause herror
  obtain ⟨rest, claimed⟩ := cursor
  by_cases hlt : rest.length < count
  · rw [getBytes_of_length_lt hlt] at herror
    cases herror
    refine .missing ?_
    intro more hmore
    have hlength : (rest ++ more).length = rest.length + more.length := List.length_append
    have hshort : (rest ++ more).length < count := by omega
    rw [getBytes_of_length_lt hshort, hlength, Nat.sub_add_eq]
  · have htake : (rest.take count).length = count := by
      rw [List.length_take]
      omega
    simp only [getBytes, htake, if_true] at herror
    cases herror

/-- The tag alone decides that an integer is refused.  The bytes behind it have a part only
in the width that is named as the expected one. -/
theorem persistent_getInteger (wide : Bool) : Persistent (getInteger wide) := by
  intro cursor cause herror
  obtain ⟨bytes, claimed⟩ := cursor
  cases bytes with
  | nil =>
      cases herror
      refine .missing ?_
      intro more hmore
      obtain rfl := List.length_eq_zero_iff.1 (Nat.lt_one_iff.1 hmore)
      rfl
  | cons b rest =>
      have hcons := getInteger_cons wide b
      cases hlead : Lead.ofByte wide b with
      | value n =>
          simp only [hcons, hlead] at herror
          cases herror
      | width count =>
          simp only [hlead] at hcons
          rw [hcons] at herror
          have hvalue := (persistent_getBytes count).bind (selfDelimiting_getBytes count)
            (fun bytes => persistent_pure (ofBigEndian bytes))
          refine (hvalue herror).after [b] ?_
          intro rest cause hrefused
          exact (hcons rest claimed).trans hrefused
      | tooWide found =>
          simp only [hlead] at hcons
          rw [hcons] at herror
          cases herror
          exact .tag (List.nil_append _).symm rfl fun more => hcons more claimed

theorem persistent_getU32 : Persistent getU32 :=
  (persistent_claim 4).bind (selfDelimiting_claim 4) fun _ =>
    (persistent_getInteger false).bind (selfDelimiting_getInteger false) fun _ =>
      persistent_pure _

theorem persistent_getU64 : Persistent getU64 :=
  (persistent_claim 8).bind (selfDelimiting_claim 8) fun _ =>
    (persistent_getInteger true).bind (selfDelimiting_getInteger true) fun _ =>
      persistent_pure _

theorem persistent_getMetadata : Persistent getMetadata :=
  persistent_getU32.bind selfDelimiting_getU32 fun _ =>
    persistent_getU32.bind selfDelimiting_getU32 fun _ =>
      persistent_getU32.bind selfDelimiting_getU32 fun _ =>
        persistent_getU32.bind selfDelimiting_getU32 fun _ => persistent_pure _

theorem persistent_getPayload : Persistent getPayload :=
  persistent_getU64.bind selfDelimiting_getU64 fun length =>
    (persistent_claim length.toNat).bind (selfDelimiting_claim length.toNat) fun _ =>
      persistent_getBytes length.toNat

theorem persistent_getOp : Persistent getOp :=
  (persistent_release opClaim).bind (selfDelimiting_release opClaim) fun _ =>
    persistent_getU32.bind selfDelimiting_getU32 fun _ =>
      persistent_getU64.bind selfDelimiting_getU64 fun _ =>
        persistent_getPayload.bind selfDelimiting_getPayload fun _ => persistent_pure _

theorem persistent_getOps (count : Nat) (before : List Op) :
    Persistent (getOps count before) := by
  induction count generalizing before with
  | zero => exact persistent_pure before.reverse
  | succ count ih =>
      exact persistent_getOp.bind selfDelimiting_getOp fun op => ih (op :: before)

theorem persistent_getProgram : Persistent getProgram :=
  persistent_getMetadata.bind selfDelimiting_getMetadata fun _ =>
    persistent_getU64.bind selfDelimiting_getU64 fun count =>
      (persistent_claim _).bind (selfDelimiting_claim _) fun _ =>
        (persistent_getOps count.toNat []).bind (selfDelimiting_getOps count.toNat [])
          fun _ => persistent_pure _

/-- Bytes are refused by the reader of programs, or they go on behind a program. -/
theorem getProgram_of_ofBytes_error {bytes : Bytes} {cause : DecodeError}
    (hbytes : ofBytes bytes = .error cause) :
    Persists getProgram 0 bytes cause ∨
      ∃ front rest program claimed, bytes = front ++ rest ∧ rest ≠ [] ∧
        Takes getProgram 0 front program claimed ∧ cause = .trailing rest.length := by
  cases hread : getProgram ⟨bytes, 0⟩ with
  | error found =>
      rw [ofBytes_of_error hread] at hbytes
      cases hbytes
      exact Or.inl (persistent_getProgram hread)
  | ok pair =>
      obtain ⟨program, rest, claimed⟩ := pair
      obtain ⟨front, hfront, htakes⟩ := selfDelimiting_getProgram hread
      have hrest : rest ≠ [] := by
        rintro rfl
        unfold ofBytes at hbytes
        rw [hread] at hbytes
        cases hbytes
      rw [ofBytes_of_rest hread hrest] at hbytes
      cases hbytes
      exact Or.inr ⟨front, rest, program, claimed, hfront, hrest, htakes, rfl⟩

theorem expectedType_eq (wide : Bool) (rest : Bytes) :
    expectedType wide rest = if wide = true ∧ rest.length < 9 then .u64 else .u32 := by
  have hempty : (rest.drop 8).isEmpty = true ↔ rest.length < 9 := by
    rw [List.isEmpty_iff, List.drop_eq_nil_iff, Nat.lt_succ_iff]
  simp only [expectedType, Bool.and_eq_true, hempty]

/-- More bytes change the width that is named only where there are nine of them now. -/
theorem expectedType_append (wide : Bool) (rest more : Bytes) :
    expectedType wide (rest ++ more) =
      if expectedType wide rest = .u64 ∧ 9 ≤ (rest ++ more).length then .u32
      else expectedType wide rest := by
  have hlength : rest.length ≤ (rest ++ more).length := by simp
  simp only [expectedType_eq]
  grind

end Wire

namespace Program

def Refused (bytes : Bytes) (cause : Wire.DecodeError) : Prop :=
  decode bytes = .error (.encoding ("unable to decode program: " ++ cause.text))

theorem refused_iff {bytes : Bytes} {cause : Wire.DecodeError} :
    Refused bytes cause ↔ Wire.ofBytes bytes = .error cause := by
  constructor
  · intro hrefused
    cases hbytes : Wire.ofBytes bytes with
    | ok program =>
        rw [Refused, decode, hbytes] at hrefused
        cases hrefused
    | error found =>
        rw [Refused, decode_of_error hbytes, Except.error.injEq, Error.encoding.injEq,
          String.append_right_inj] at hrefused
        rw [Wire.DecodeError.text_inj hrefused]
  · exact decode_of_error

theorem refused_of_getProgram {bytes : Bytes} {cause : Wire.DecodeError}
    (hread : Wire.getProgram ⟨bytes, 0⟩ = .error cause) : Refused bytes cause :=
  refused_iff.2 (Wire.ofBytes_of_error hread)

theorem Refused.persists {bytes : Bytes} {cause : Wire.DecodeError} (hrefused : Refused bytes cause)
    (hread : ∀ count, cause ≠ .trailing count) :
    Wire.Persists Wire.getProgram 0 bytes cause := by
  rcases Wire.getProgram_of_ofBytes_error (refused_iff.1 hrefused) with
    hpersists | ⟨_, _, _, _, _, _, _, hcause⟩
  · exact hpersists
  · exact absurd hcause (hread _)

theorem Refused.trailing_append {bytes : Bytes} {count : Nat}
    (hrefused : Refused bytes (.trailing count)) (more : Bytes) :
    Refused (bytes ++ more) (.trailing (count + more.length)) := by
  rcases Wire.getProgram_of_ofBytes_error (refused_iff.1 hrefused) with
    hpersists | ⟨front, rest, program, claimed, rfl, hrest, htakes, hcount⟩
  · cases hpersists
  · cases hcount
    have hread := htakes.read (rest ++ more)
    rw [← List.append_assoc] at hread
    have hmore : rest ++ more ≠ [] := List.append_ne_nil_of_left_ne_nil hrest more
    rw [← List.length_append]
    exact refused_iff.2 (Wire.ofBytes_of_rest hread hmore)

/-- Refusals are decided by what was read, and they are stable when more bytes arrive.  A
claim beyond the limit stays one.  A tag that does not fit stays the one that is refused: it
is met where one byte more is wanted, it is refused on its own, and of what is said of it
only the expected width can change, once there are nine bytes from the tag on.  Where bytes
are missing, those that arrive are missing no longer, and where bytes are left over, those
that arrive are left over as well. -/
theorem refused_append (bytes more : Bytes) :
    (Refused bytes .limitExceeded → Refused (bytes ++ more) .limitExceeded) ∧
    (∀ expected found, Refused bytes (.invalidInteger expected found) →
      ∃ front tag behind, bytes = front ++ tag :: behind ∧
        Refused front (.unexpectedEnd 1) ∧
        (∃ narrow, Refused (front ++ [tag]) (.invalidInteger narrow found)) ∧
        Refused (bytes ++ more)
          (.invalidInteger
            (if expected = .u64 ∧ 9 ≤ (tag :: behind ++ more).length then .u32 else expected)
            found)) ∧
    (∀ additional, Refused bytes (.unexpectedEnd additional) → more.length < additional →
      Refused (bytes ++ more) (.unexpectedEnd (additional - more.length))) ∧
    ∀ count, Refused bytes (.trailing count) →
      Refused (bytes ++ more) (.trailing (count + more.length)) := by
  refine ⟨?_, ?_, ?_, ?_⟩
  · intro hrefused
    cases hrefused.persists (by simp) with
    | limit hmore => exact refused_of_getProgram (hmore more)
  · intro expected found hrefused
    cases hrefused.persists (by simp) with
    | @tag front behind tag wide _ hbytes hfront hbehind =>
        refine ⟨front, tag, behind, hbytes, refused_of_getProgram hfront,
          ⟨_, refused_of_getProgram (hbehind [])⟩, ?_⟩
        rw [← Wire.expectedType_append, hbytes, List.append_assoc]
        exact refused_of_getProgram (hbehind (behind ++ more))
  · intro additional hrefused hlength
    cases hrefused.persists (by simp) with
    | missing hmore => exact refused_of_getProgram (hmore more hlength)
  · intro count hrefused
    exact hrefused.trailing_append more

/-- The number of ops is where each kind of refusal can be met: it is too large, it has a tag
that does not fit, it is cut short, or it is zero and bytes are left over. -/
theorem refused_append_count :
    Refused [1, 0, 0, 2, 0xfc, 1, 0, 0, 0, 9] .limitExceeded ∧
      Refused [1, 0, 0, 2, 0xfe, 7] (.invalidInteger .u64 .u128) ∧
      Refused [1, 0, 0, 2, 0xfe, 7, 0, 0, 0, 0, 0, 0, 0, 0] (.invalidInteger .u32 .u128) ∧
      Refused [1, 0, 0, 2, 0xfd, 0, 0, 0, 0] (.unexpectedEnd 4) ∧
      Refused [1, 0, 0, 2, 0, 7, 8, 9] (.trailing 3) := by
  have hlimit : Refused [1, 0, 0, 2, 0xfc, 1, 0, 0, 0] .limitExceeded :=
    refused_iff.2 (by decide)
  have htag : Refused [1, 0, 0, 2, 0xfe, 7] (.invalidInteger .u64 .u128) :=
    refused_iff.2 (by decide)
  have hmissing : Refused [1, 0, 0, 2, 0xfd, 0, 0] (.unexpectedEnd 6) :=
    refused_iff.2 (by decide)
  have htrailing : Refused [1, 0, 0, 2, 0, 7] (.trailing 1) := refused_iff.2 (by decide)
  refine ⟨(refused_append _ [9]).1 hlimit, htag, ?_, ?_, ?_⟩
  · obtain ⟨front, tag, behind, _, _, _, hmore⟩ :=
      (refused_append _ [0, 0, 0, 0, 0, 0, 0, 0]).2.1 _ _ htag
    rw [if_pos ⟨rfl, by simp⟩] at hmore
    exact hmore
  · exact (refused_append _ [0, 0]).2.2.1 6 hmissing (by decide)
  · exact (refused_append _ [8, 9]).2.2.2 1 htrailing

end Program

end MerkleStack
