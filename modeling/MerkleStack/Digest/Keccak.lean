/-
The Keccak permutation on twenty-five lanes of sixty-four bits, and the SHAKE
functions that a sponge makes of it.
-/
import MerkleStack.Digest.Absorbed
import MerkleStack.Digest.Squeeze

namespace MerkleStack.Keccak

/-- The lanes; the one in column `x` of row `y` stands at `x + 5 * y`. -/
abbrev State := Vector UInt64 25

/-- Lane at a position counted modulo the number of lanes. -/
def State.lane (s : State) (i : Nat) : UInt64 :=
  s.get ⟨i % 25, Nat.mod_lt i (by decide)⟩

/-- Rotation to the left by less than a word. -/
def rotateLeft (x n : UInt64) : UInt64 :=
  x <<< n ||| x >>> (64 - n)

def rotations : Vector UInt64 25 := #v[
  0, 1, 62, 28, 27,
  36, 44, 6, 55, 20,
  3, 10, 43, 25, 39,
  41, 45, 15, 21, 8,
  18, 2, 61, 56, 14]

def roundConstants : List UInt64 :=
  [0x0000000000000001, 0x0000000000008082, 0x800000000000808a,
   0x8000000080008000, 0x000000000000808b, 0x0000000080000001,
   0x8000000080008081, 0x8000000000008009, 0x000000000000008a,
   0x0000000000000088, 0x0000000080008009, 0x000000008000000a,
   0x000000008000808b, 0x800000000000008b, 0x8000000000008089,
   0x8000000000008003, 0x8000000000008002, 0x8000000000000080,
   0x000000000000800a, 0x800000008000000a, 0x8000000080008081,
   0x8000000000008080, 0x0000000080000001, 0x8000000080008008]

def columnParity (s : State) (i : Nat) : UInt64 :=
  s.lane (i % 5) ^^^ s.lane (i % 5 + 5) ^^^ s.lane (i % 5 + 10) ^^^
    s.lane (i % 5 + 15) ^^^ s.lane (i % 5 + 20)

/-- Each lane takes in the parities of the two columns beside it. -/
def theta (s : State) : State :=
  let parity : Vector UInt64 5 := Vector.ofFn fun x => columnParity s x.val
  let change : Vector UInt64 5 := Vector.ofFn fun x =>
    parity.get (x + 4) ^^^ rotateLeft (parity.get (x + 1)) 1
  Vector.ofFn fun i => s.get i ^^^ change.get (Fin.ofNat 5 i.val)

/-- Lanes are rotated and moved to other places. -/
def rhoPi (s : State) : State :=
  let turned : State := Vector.ofFn fun i => rotateLeft (s.get i) (rotations.get i)
  Vector.ofFn fun i =>
    let x := i.val % 5
    let y := i.val / 5
    turned.lane ((x + 3 * y) % 5 + 5 * x)

/-- Each lane is flipped where its neighbours in the row say so. -/
def chi (s : State) : State :=
  Vector.ofFn fun i =>
    let x := i.val % 5
    let row := i.val - x
    s.get i ^^^ (~~~s.lane (row + (x + 1) % 5) &&& s.lane (row + (x + 2) % 5))

def round (s : State) (constant : UInt64) : State :=
  let mixed := chi (rhoPi (theta s))
  mixed.set 0 (mixed[0] ^^^ constant)

def permute (s : State) : State :=
  roundConstants.foldl round s

def zero : State := Vector.replicate 25 0

/-- Take one block of `rate` bytes into the state. -/
def absorb (rate : Nat) (s : State) (block : Bytes) : State :=
  let words := ((blocks 8 (rate / 8) block).map fun w =>
    UInt64.ofNat (ofLittleEndian w)).toArray
  permute (Vector.ofFn fun i => s.get i ^^^ words.getD i.val 0)

/-- Take all whole blocks of a byte string into the state. -/
def absorbAll (rate : Nat) (s : State) (bytes : Bytes) : State :=
  (blocks rate (bytes.length / rate) bytes).foldl (absorb rate) s

/-- The first `rate` bytes of the state. -/
def emit (rate : Nat) (s : State) : Bytes :=
  (List.range rate).map fun i =>
    UInt8.ofNat ((s.lane (i / 8)).toNat >>> (8 * (i % 8)))

/-- What follows a message of `length` bytes: the suffix bits of the SHAKE
functions, zeros, and a one bit at the end of the block. -/
def padding (rate length : Nat) : Bytes :=
  match rate - length % rate - 1 with
  | 0 => [0x9f]
  | gap + 1 => 0x1f :: List.replicate gap 0 ++ [0x80]

/-- The first `size` bytes of the output for a message. -/
def digest (rate : Nat) (message : Bytes) (size : Nat) : Bytes :=
  squeeze rate (emit rate) permute
    (absorbAll rate zero (message ++ padding rate message.length)) size

/-- The first `size` bytes of the output for the message that ends with `last`. -/
def finish (rate : Nat) (s : State) (last : Bytes) (size : Nat) : Bytes :=
  squeeze rate (emit rate) permute
    (absorbAll rate s (last ++ padding rate last.length)) size

def blockHash (rate : Nat) : BlockHash where
  State := State
  blockSize := rate
  start := zero
  absorb := absorb rate
  finish := finish rate

theorem absorbAll_append {rate : Nat} (hrate : 0 < rate) (s : State) {count : Nat}
    {whole rest : Bytes} (hwhole : whole.length = count * rate) :
    absorbAll rate s (whole ++ rest) =
      absorbAll rate ((blocks rate count whole).foldl (absorb rate) s) rest := by
  have hcount : (whole ++ rest).length / rate = count + rest.length / rate := by
    rw [List.length_append, hwhole, Nat.add_comm, Nat.add_mul_div_right _ _ hrate,
      Nat.add_comm]
  rw [absorbAll, absorbAll, hcount, blocks_add, List.foldl_append,
    blocks_append _ _ _ _ (Nat.le_of_eq hwhole.symm), ← hwhole, List.drop_left]

theorem padding_add_mul (rate count length : Nat) :
    padding rate (count * rate + length) = padding rate length := by
  rw [padding, padding, Nat.add_comm, Nat.add_mul_mod_self_right]

/-- Taken block by block, a message has the digest that it has as a whole. -/
theorem finish_write {rate : Nat} (hrate : 0 < rate) (message : Bytes) (size : Nat) :
    ((Absorbed.empty (blockHash rate)).write message).finish size =
      digest rate message size := by
  generalize hcount : (message.length - 1) / rate = count
  have hle : count * rate ≤ message.length := by
    have := Nat.div_mul_le_self (message.length - 1) rate
    rw [hcount] at this
    omega
  have hwhole : (message.take (count * rate)).length = count * rate := by
    rw [List.length_take]
    omega
  have hlength : count * rate + (message.drop (count * rate)).length = message.length := by
    rw [List.length_drop]
    omega
  rw [Absorbed.write_empty hrate message hcount.symm]
  change finish rate ((blocks rate count message).foldl (absorb rate) zero)
    (message.drop (count * rate)) size = digest rate message size
  rw [finish, ← padding_add_mul rate count, hlength, digest, ← blocks_take _ _ _ hle,
    ← absorbAll_append hrate zero hwhole, ← List.append_assoc, List.take_append_drop]

def shake128Rate : Nat := 168

def shake256Rate : Nat := 136

end MerkleStack.Keccak
