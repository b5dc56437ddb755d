/-
Reading of untrusted bytes.  A reader takes bytes from the front and keeps count
of the memory that it claims; a claim comes before the read that it covers, so no
input makes a reader hold more than the limit.
-/
import MerkleStack.Bytes

namespace MerkleStack.Wire

/-- Widths that an integer on the wire can be tagged with. -/
inductive IntegerType
  | u32
  | u64
  | u128
  | reserved
deriving DecidableEq, Repr

def IntegerType.text : IntegerType → String
  | u32 => "U32"
  | u64 => "U64"
  | u128 => "U128"
  | reserved => "Reserved"

/-- Why bytes are no encoded program. -/
inductive DecodeError
  | limitExceeded
  | invalidInteger (expected found : IntegerType)
  | unexpectedEnd (additional : Nat)
  | trailing (count : Nat)
deriving DecidableEq, Repr

def DecodeError.text : DecodeError → String
  | limitExceeded => "LimitExceeded"
  | invalidInteger expected found =>
      "InvalidIntegerType \x7b expected: " ++ expected.text ++
        ", found: " ++ found.text ++ " \x7d"
  | unexpectedEnd additional =>
      "UnexpectedEnd \x7b additional: " ++ additional.repr ++ " \x7d"
  | trailing count => count.repr ++ " trailing bytes"

/-- Most bytes that may be claimed at any time. -/
def claimLimit : Nat := 16777216

/-- Bytes still to be read, and the number of bytes claimed so far. -/
structure Cursor where
  rest : Bytes
  claimed : Nat
deriving DecidableEq, Repr

/-- A computation that reads from the front of the bytes. -/
abbrev Reader := StateT Cursor (Except DecodeError)

def claim (count : Nat) : Reader Unit := fun cursor =>
  if cursor.claimed + count ≤ claimLimit then
    .ok ((), { cursor with claimed := cursor.claimed + count })
  else
    .error .limitExceeded

def release (count : Nat) : Reader Unit := fun cursor =>
  .ok ((), { cursor with claimed := cursor.claimed - count })

def getByte : Reader UInt8 := fun cursor =>
  match cursor.rest with
  | [] => .error (.unexpectedEnd 1)
  | b :: rest => .ok (b, { cursor with rest })

def getBytes (count : Nat) : Reader Bytes := fun cursor =>
  let front := cursor.rest.take count
  if front.length = count then
    .ok (front, { cursor with rest := cursor.rest.drop count })
  else
    .error (.unexpectedEnd (count - front.length))

section

variable {α β : Type} {reader : Reader α} {next : α → Reader β} {cursor after : Cursor}

theorem bind_of_ok {value : α} (hreader : reader cursor = .ok (value, after)) :
    (reader >>= next) cursor = next value after := by
  change (reader cursor).bind _ = _
  rw [hreader]
  rfl

theorem bind_of_error {cause : DecodeError} (hreader : reader cursor = .error cause) :
    (reader >>= next) cursor = .error cause := by
  change (reader cursor).bind _ = _
  rw [hreader]
  rfl

/-- A reader that goes on after another one gives a result only if both do. -/
theorem bind_eq_ok {result : β × Cursor} (hresult : (reader >>= next) cursor = .ok result) :
    ∃ value middle, reader cursor = .ok (value, middle) ∧ next value middle = .ok result := by
  cases hreader : reader cursor with
  | error cause =>
      rw [bind_of_error hreader] at hresult
      cases hresult
  | ok pair =>
      rcases pair with ⟨value, middle⟩
      rw [bind_of_ok hreader] at hresult
      exact ⟨value, middle, rfl, hresult⟩

end

theorem claim_of_le {rest : Bytes} {claimed count : Nat} (hle : claimed + count ≤ claimLimit) :
    claim count ⟨rest, claimed⟩ = .ok ((), ⟨rest, claimed + count⟩) :=
  if_pos hle

theorem claim_of_lt {rest : Bytes} {claimed count : Nat} (hlt : claimLimit < claimed + count) :
    claim count ⟨rest, claimed⟩ = .error .limitExceeded :=
  if_neg (Nat.not_le.2 hlt)

theorem rest_of_claim {count : Nat} {cursor after : Cursor}
    (hclaim : claim count cursor = .ok ((), after)) : after.rest = cursor.rest := by
  rw [claim] at hclaim
  split at hclaim
  · cases hclaim
    rfl
  · cases hclaim

theorem getBytes_append (front rest : Bytes) (claimed : Nat) :
    getBytes front.length ⟨front ++ rest, claimed⟩ = .ok (front, ⟨rest, claimed⟩) := by
  simp [getBytes]

theorem rest_of_getBytes {count : Nat} {front : Bytes} {cursor after : Cursor}
    (hbytes : getBytes count cursor = .ok (front, after)) :
    front.length = count ∧ cursor.rest = front ++ after.rest := by
  rw [getBytes] at hbytes
  split at hbytes
  · cases hbytes
    exact ⟨by assumption, (List.take_append_drop count cursor.rest).symm⟩
  · cases hbytes

end MerkleStack.Wire
