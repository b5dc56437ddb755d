/-
A bench of hashers in numbered slots, one of them current, on which hashers are
used, copied and compared.
-/
import MerkleStack.Hasher

namespace MerkleStack

/-- Hashers in slots, and the slot that actions go to. -/
structure Bench where
  slots : List Hasher
  current : Nat
  current_lt : current < slots.length

namespace Bench

/-- What can be done on a bench. -/
inductive Action
  | write (bytes : Bytes)
  | sum
  | reset
  | size
  | describe
  | clone
  | use (slot : Nat)
deriving DecidableEq, Repr

/-- What an action answers. -/
inductive Reply
  | done
  | digest (bytes : Bytes)
  | size (count : Nat)
  | text (text : String)
  | slot (number : Nat)
  | noSlot
  | refused (cause : Error)
deriving DecidableEq, Repr

def ofHasher (hasher : Hasher) : Bench :=
  ⟨[hasher], 0, Nat.zero_lt_one⟩

def hasher (bench : Bench) : Hasher :=
  bench.slots.get ⟨bench.current, bench.current_lt⟩

/-- The bench with another hasher in the current slot. -/
def put (bench : Bench) (hasher : Hasher) : Bench :=
  ⟨bench.slots.set bench.current hasher, bench.current, by
    rw [List.length_set]
    exact bench.current_lt⟩

/-- The bench with a copy of the current hasher in a new slot. -/
def clone (bench : Bench) : Bench :=
  ⟨bench.slots ++ [bench.hasher], bench.current, by
    rw [List.length_append]
    exact Nat.lt_add_right _ bench.current_lt⟩

/-- Carry out one action.  A refused action changes nothing. -/
def act (bench : Bench) : Action → Reply × Bench
  | .write bytes =>
      match bench.hasher.write bytes with
      | .ok hasher => (.done, bench.put hasher)
      | .error cause => (.refused cause, bench)
  | .sum =>
      match bench.hasher.sum with
      | .ok (digest, hasher) => (.digest digest, bench.put hasher)
      | .error cause => (.refused cause, bench)
  | .reset => (.done, bench.put bench.hasher.reset)
  | .size => (.size bench.hasher.size, bench)
  | .describe => (.text bench.hasher.describe, bench)
  | .clone => (.slot bench.slots.length, bench.clone)
  | .use slot =>
      if hslot : slot < bench.slots.length then
        (.done, ⟨bench.slots, slot, hslot⟩)
      else
        (.noSlot, bench)

def replies (bench : Bench) : List Action → List Reply
  | [] => []
  | action :: rest =>
      let (reply, after) := bench.act action
      reply :: after.replies rest

end Bench

end MerkleStack
