/-
Digests of different sizes.  All that a function can give for a message is one sequence of
bytes, which the message fixes: block after block of the sponge or of the root, or just the
digest if that has a size of its own.  A digest of any size is what this sequence begins
with, so a shorter digest is a prefix of a longer one.
-/
import Mathlib.Logic.Function.Iterate
import MerkleStack.Proofs.Absorption
import MerkleStack.Proofs.DigestLength

namespace MerkleStack

section

universe u

variable {σ : Type u} {width : Nat} {emit : σ → Bytes}

/-- A byte of the first blocks stands in the block that its position counts to. -/
theorem getElem?_flatten_streamBlocks (hwidth : 0 < width)
    (hemit : ∀ state, (emit state).length = width) (next : σ → σ) (state : σ)
    {count position : Nat} (hlt : position < count * width) :
    (streamBlocks emit next count state).flatten[position]? =
      (emit (next^[position / width] state))[position % width]? := by
  induction count generalizing state position with
  | zero => omega
  | succ count ih =>
      rw [streamBlocks, List.flatten_cons]
      by_cases hfirst : position < width
      · rw [List.getElem?_append_left (by rwa [hemit]), Nat.div_eq_of_lt hfirst,
          Nat.mod_eq_of_lt hfirst]
        rfl
      · have hle : width ≤ position := Nat.le_of_not_lt hfirst
        have hrest : position - width < count * width := by
          rw [Nat.succ_mul] at hlt
          omega
        have hdiv : position / width = (position - width) / width + 1 :=
          Nat.div_eq_sub_div hwidth hle
        have hmod : position % width = (position - width) % width := Nat.mod_eq_sub_mod hle
        rw [List.getElem?_append_right (by rwa [hemit]), hemit, ih (next state) hrest, hdiv,
          hmod, Function.iterate_succ_apply]

theorem getElem?_squeeze (hwidth : 0 < width) (hemit : ∀ state, (emit state).length = width)
    (next : σ → σ) (state : σ) {size position : Nat} (hlt : position < size) :
    (squeeze width emit next state size)[position]? =
      (emit (next^[position / width] state))[position % width]? := by
  have hcover := length_squeeze hwidth hemit next state size
  rw [squeeze, List.length_take, length_flatten_streamBlocks hemit] at hcover
  rw [squeeze, List.getElem?_take_of_lt hlt,
    getElem?_flatten_streamBlocks hwidth hemit next state (by omega)]

end

namespace Keccak

/-- Byte of the output for a message at a position.  The state is permuted once for every
block of `rate` bytes before it. -/
def outputByte? (rate : Nat) (message : Bytes) (position : Nat) : Option UInt8 :=
  (emit rate (permute^[position / rate]
    (absorbAll rate zero (message ++ padding rate message.length))))[position % rate]?

theorem getElem?_digest {rate : Nat} (hrate : 0 < rate) (message : Bytes)
    {size position : Nat} (hlt : position < size) :
    (digest rate message size)[position]? = outputByte? rate message position :=
  getElem?_squeeze hrate (length_emit rate) permute _ hlt

theorem take_digest {rate : Nat} (hrate : 0 < rate) (message : Bytes) {short long : Nat}
    (hle : short ≤ long) :
    (digest rate message long).take short = digest rate message short :=
  take_squeeze hrate (length_emit rate) permute _ hle

end Keccak

namespace Blake3

/-- Byte of the output for a message at a position.  The root is compressed anew for every
block, with the number of the block. -/
def outputByte? (message : Bytes) (position : Nat) : Option UInt8 :=
  ((tree 0 message).outputBlock (position / blockBytes))[position % blockBytes]?

theorem getElem?_extended (message : Bytes) {size position : Nat} (hlt : position < size) :
    (extended message size)[position]? = outputByte? message position := by
  have hbyte := getElem?_squeeze (by decide) (tree 0 message).length_outputBlock (· + 1) 0 hlt
  have hcount : (fun number : Nat => number + 1)^[position / blockBytes] 0 =
      position / blockBytes := by
    rw [Nat.succ_iterate, Nat.zero_add]
  rw [hcount] at hbyte
  exact hbyte

theorem take_extended (message : Bytes) {short long : Nat} (hle : short ≤ long) :
    (extended message long).take short = extended message short :=
  take_squeeze (by decide) (tree 0 message).length_outputBlock (· + 1) 0 hle

end Blake3

namespace HashFunction

/-- Byte at a position of all that a function can give for a message.  Functions with a
size of their own give no more than their digest. -/
def outputByte? : HashFunction → Bytes → Nat → Option UInt8
  | sha256, message, position => (Sha256.digest message)[position]?
  | shake128, message, position => Keccak.outputByte? Keccak.shake128Rate message position
  | shake256, message, position => Keccak.outputByte? Keccak.shake256Rate message position
  | blake3, message, position => (Blake3.digest message)[position]?
  | blake3Xof, message, position => Blake3.outputByte? message position

/-- A digest of any size is what the output begins with. -/
theorem getElem?_digest (function : HashFunction) (message : Bytes) {size position : Nat}
    (hlt : position < function.digestSize size) :
    (function.digest size message)[position]? = function.outputByte? message position := by
  cases function with
  | sha256 => rfl
  | shake128 => exact Keccak.getElem?_digest (by decide) message hlt
  | shake256 => exact Keccak.getElem?_digest (by decide) message hlt
  | blake3 => rfl
  | blake3Xof => exact Blake3.getElem?_extended message hlt

theorem take_digest {function : HashFunction} (hdeclared : function.policy = .declared)
    (message : Bytes) {short long : Nat} (hle : short ≤ long) :
    (function.digest long message).take short = function.digest short message := by
  cases function with
  | sha256 => cases hdeclared
  | shake128 => exact Keccak.take_digest (by decide) message hle
  | shake256 => exact Keccak.take_digest (by decide) message hle
  | blake3 => cases hdeclared
  | blake3Xof => exact Blake3.take_extended message hle

theorem digestSize_of_declared {function : HashFunction}
    (hdeclared : function.policy = .declared) (size : Nat) :
    function.digestSize size = size := by
  rw [digestSize, hdeclared]

end HashFunction

namespace Hasher

/-- The digest that a fresh hasher gives after some writes. -/
def sumAfter (function : HashFunction) (size : Nat) (writes : List Bytes) :
    Except Error Bytes :=
  (writes.foldlM write (new function size) >>= sum).map Prod.fst

theorem sumAfter_eq (function : HashFunction) (size : Nat) (writes : List Bytes) :
    sumAfter function size writes = .ok (function.digest size writes.flatten) := by
  change ((new function size).sumOf writes).map Prod.fst = _
  rw [sumOf_eq, ← function.digest_digestSize size]
  rfl

/-- Digests of different sizes are what one stream of bytes begins with.  Fresh hashers of
an extendable function that read the same message, however it was cut, both give a digest
of the size that was asked for.  The shorter one is a prefix of the longer one, and every
byte of either is the byte of the function's output at that position. -/
theorem sumAfter_prefix {function : HashFunction} (hdeclared : function.policy = .declared)
    {short long : Nat} (hle : short ≤ long) {writes others : List Bytes}
    (hsame : writes.flatten = others.flatten) :
    ∃ digest longer,
      sumAfter function short writes = .ok digest ∧
      sumAfter function long others = .ok longer ∧
      digest = longer.take short ∧ digest.length = short ∧ longer.length = long ∧
      ∀ position < long,
        longer[position]? = function.outputByte? writes.flatten position := by
  have hsize := HashFunction.digestSize_of_declared hdeclared
  refine ⟨_, _, sumAfter_eq function short writes, sumAfter_eq function long others,
    ?_, ?_, ?_, ?_⟩
  · rw [hsame, HashFunction.take_digest hdeclared _ hle]
  · rw [HashFunction.length_digest, hsize]
  · rw [HashFunction.length_digest, hsize]
  · intro position hlt
    rw [hsame]
    apply HashFunction.getElem?_digest
    rwa [hsize]

/-- Digests that end within a block, the longer one some blocks later, of a message that was
written in other pieces. -/
theorem sumAfter_prefix_shake128 :
    HashFunction.policy .shake128 = .declared ∧ 200 ≤ 1000 ∧
      ([[1], [2, 3]] : List Bytes).flatten = ([[], [1, 2], [3]] : List Bytes).flatten ∧
      ∃ digest longer,
        sumAfter .shake128 200 [[1], [2, 3]] = .ok digest ∧
        sumAfter .shake128 1000 [[], [1, 2], [3]] = .ok longer ∧
        digest = longer.take 200 ∧ digest.length = 200 ∧ longer.length = 1000 ∧
        ∀ position < 1000,
          longer[position]? = HashFunction.outputByte? .shake128 [1, 2, 3] position :=
  ⟨rfl, by decide, rfl, sumAfter_prefix rfl (by decide) rfl⟩

end Hasher

end MerkleStack
