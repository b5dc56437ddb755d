/-
SHA-256.  The padded message is cut into blocks of sixty-four bytes, and the
digest is the chain of eight words after the last of them.
-/
import MerkleStack.Digest.Absorbed

namespace MerkleStack.Sha256

/-- Eight words: the chain between blocks and the working words in a block. -/
structure Words where
  a : UInt32
  b : UInt32
  c : UInt32
  d : UInt32
  e : UInt32
  f : UInt32
  g : UInt32
  h : UInt32
deriving DecidableEq, Repr

def Words.add (x y : Words) : Words :=
  ⟨x.a + y.a, x.b + y.b, x.c + y.c, x.d + y.d,
    x.e + y.e, x.f + y.f, x.g + y.g, x.h + y.h⟩

/-- The words in order, each most significant byte first. -/
def Words.toBytes (x : Words) : Bytes :=
  [x.a, x.b, x.c, x.d, x.e, x.f, x.g, x.h].flatMap fun w => bigEndian 4 w.toNat

def start : Words :=
  ⟨0x6a09e667, 0xbb67ae85, 0x3c6ef372, 0xa54ff53a,
    0x510e527f, 0x9b05688c, 0x1f83d9ab, 0x5be0cd19⟩

def roundConstants : List UInt32 :=
  [0x428a2f98, 0x71374491, 0xb5c0fbcf, 0xe9b5dba5,
   0x3956c25b, 0x59f111f1, 0x923f82a4, 0xab1c5ed5,
   0xd807aa98, 0x12835b01, 0x243185be, 0x550c7dc3,
   0x72be5d74, 0x80deb1fe, 0x9bdc06a7, 0xc19bf174,
   0xe49b69c1, 0xefbe4786, 0x0fc19dc6, 0x240ca1cc,
   0x2de92c6f, 0x4a7484aa, 0x5cb0a9dc, 0x76f988da,
   0x983e5152, 0xa831c66d, 0xb00327c8, 0xbf597fc7,
   0xc6e00bf3, 0xd5a79147, 0x06ca6351, 0x14292967,
   0x27b70a85, 0x2e1b2138, 0x4d2c6dfc, 0x53380d13,
   0x650a7354, 0x766a0abb, 0x81c2c92e, 0x92722c85,
   0xa2bfe8a1, 0xa81a664b, 0xc24b8b70, 0xc76c51a3,
   0xd192e819, 0xd6990624, 0xf40e3585, 0x106aa070,
   0x19a4c116, 0x1e376c08, 0x2748774c, 0x34b0bcb5,
   0x391c0cb3, 0x4ed8aa4a, 0x5b9cca4f, 0x682e6ff3,
   0x748f82ee, 0x78a5636f, 0x84c87814, 0x8cc70208,
   0x90befffa, 0xa4506ceb, 0xbef9a3f7, 0xc67178f2]

/-- Rotation to the right by less than a word. -/
def rotateRight (x n : UInt32) : UInt32 :=
  x >>> n ||| x <<< (32 - n)

/-- One more word of the schedule, from the sixteen before it. -/
def extendSchedule (w : Array UInt32) (t : Nat) : Array UInt32 :=
  let x := w.getD (t + 1) 0
  let y := w.getD (t + 14) 0
  let small := rotateRight x 7 ^^^ rotateRight x 18 ^^^ x >>> 3
  let large := rotateRight y 17 ^^^ rotateRight y 19 ^^^ y >>> 10
  w.push (w.getD t 0 + small + w.getD (t + 9) 0 + large)

/-- The sixteen words of a block and the forty-eight mixed from them. -/
def schedule (block : Bytes) : Array UInt32 :=
  (List.range 48).foldl extendSchedule
    ((blocks 4 16 block).map fun w => UInt32.ofNat (ofBigEndian w)).toArray

/-- One round, with the sum of its constant and its schedule word. -/
def round (x : Words) (kw : UInt32) : Words :=
  let mixE := rotateRight x.e 6 ^^^ rotateRight x.e 11 ^^^ rotateRight x.e 25
  let choice := (x.e &&& x.f) ^^^ (~~~x.e &&& x.g)
  let mixA := rotateRight x.a 2 ^^^ rotateRight x.a 13 ^^^ rotateRight x.a 22
  let majority := (x.a &&& x.b) ^^^ (x.a &&& x.c) ^^^ (x.b &&& x.c)
  let t := x.h + mixE + choice + kw
  ⟨t + mixA + majority, x.a, x.b, x.c, x.d + t, x.e, x.f, x.g⟩

/-- The chain after one more block. -/
def compress (chain : Words) (block : Bytes) : Words :=
  chain.add <| List.foldl round chain <|
    List.zipWith (· + ·) roundConstants (schedule block).toList

/-- What follows a message of `length` bytes: a one bit, zeros up to the last
eight bytes of a block, and the length in bits. -/
def padding (length : Nat) : Bytes :=
  0x80 :: List.replicate ((119 - length % 64) % 64) 0 ++ bigEndian 8 (8 * length)

/-- The chain after all whole blocks of a byte string. -/
def compressAll (chain : Words) (bytes : Bytes) : Words :=
  (blocks 64 (bytes.length / 64) bytes).foldl compress chain

def digest (message : Bytes) : Bytes :=
  (compressAll start (message ++ padding message.length)).toBytes

/-- The chain and the number of bytes it has taken. -/
structure State where
  chain : Words
  length : Nat

def State.absorb (state : State) (block : Bytes) : State :=
  ⟨compress state.chain block, state.length + block.length⟩

/-- Digest of the message that ends with `last`. -/
def State.finish (state : State) (last : Bytes) : Bytes :=
  (compressAll state.chain (last ++ padding (state.length + last.length))).toBytes

/-- SHA-256 taken block by block.  Its digests have thirty-two bytes, whatever
size is asked for. -/
def blockHash : BlockHash where
  State := State
  blockSize := 64
  start := ⟨start, 0⟩
  absorb := State.absorb
  finish state last _ := state.finish last

theorem compressAll_append (chain : Words) {count : Nat} {whole rest : Bytes}
    (hwhole : whole.length = count * 64) :
    compressAll chain (whole ++ rest) =
      compressAll ((blocks 64 count whole).foldl compress chain) rest := by
  have hcount : (whole ++ rest).length / 64 = count + rest.length / 64 := by
    rw [List.length_append, hwhole]
    omega
  rw [compressAll, compressAll, hcount, blocks_add, List.foldl_append,
    blocks_append _ _ _ _ (by omega), ← hwhole, List.drop_left]

theorem foldl_absorb (state : State) (whole : List Bytes)
    (hwhole : ∀ block ∈ whole, block.length = 64) :
    whole.foldl State.absorb state =
      ⟨whole.foldl compress state.chain, state.length + whole.length * 64⟩ := by
  induction whole generalizing state with
  | nil => rfl
  | cons block rest ih =>
      have hblock := hwhole block List.mem_cons_self
      rw [List.foldl_cons, ih _ fun other hmem => hwhole other (List.mem_cons_of_mem _ hmem)]
      rw [State.absorb, hblock, List.foldl_cons, List.length_cons, Nat.succ_mul,
        Nat.add_assoc, Nat.add_comm 64]

/-- Taken block by block, a message has the digest that it has as a whole. -/
theorem finish_write (message : Bytes) (size : Nat) :
    ((Absorbed.empty blockHash).write message).finish size = digest message := by
  generalize hcount : (message.length - 1) / 64 = count
  have hle : count * 64 ≤ message.length := by omega
  have hwhole : (message.take (count * 64)).length = count * 64 := by
    rw [List.length_take]
    omega
  have hlength : count * 64 + (message.drop (count * 64)).length = message.length := by
    rw [List.length_drop]
    omega
  rw [Absorbed.write_empty (by decide) message hcount.symm]
  change ((blocks 64 count message).foldl State.absorb ⟨start, 0⟩).finish
    (message.drop (count * 64)) = digest message
  rw [foldl_absorb _ _ fun block hmem => length_of_mem_blocks hle hmem, length_blocks,
    State.finish, Nat.zero_add, hlength, digest, ← blocks_take _ _ _ hle,
    ← compressAll_append start hwhole, ← List.append_assoc, List.take_append_drop]

end MerkleStack.Sha256
