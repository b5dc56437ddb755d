/-
BLAKE3.  A message is cut into chunks of 1024 bytes, which are the leaves of a
binary tree; the left subtree of every node holds the largest power of two of
chunks that leaves something to the right.  The root gives a stream of output
blocks.
-/
import MerkleStack.Digest.Absorbed
import MerkleStack.Digest.Squeeze

namespace MerkleStack.Blake3

/-- The value of a subtree: eight words. -/
abbrev Chain := Vector UInt32 8

/-- Sixteen words: a block of a message, or the words that a block is mixed in. -/
abbrev Block := Vector UInt32 16

/-- The chain that every chunk and every inner node starts from. -/
def start : Chain := #v[
  0x6a09e667, 0xbb67ae85, 0x3c6ef372, 0xa54ff53a,
  0x510e527f, 0x9b05688c, 0x1f83d9ab, 0x5be0cd19]

def chunkStart : UInt32 := 1

def chunkEnd : UInt32 := 2

def innerNode : UInt32 := 4

def rootNode : UInt32 := 8

def blockBytes : Nat := 64

def chunkBytes : Nat := 1024

/-- Rotation to the right by less than a word. -/
def rotateRight (x n : UInt32) : UInt32 :=
  x >>> n ||| x <<< (32 - n)

/-- Mix two message words into four of the words. -/
def mix (v : Block) (a b c d : Fin 16) (x y : UInt32) : Block :=
  let va := v[a] + v[b] + x
  let vd := rotateRight (v[d] ^^^ va) 16
  let vc := v[c] + vd
  let vb := rotateRight (v[b] ^^^ vc) 12
  let va := va + vb + y
  let vd := rotateRight (vd ^^^ va) 8
  let vc := vc + vd
  let vb := rotateRight (vb ^^^ vc) 7
  (((v.set a va).set b vb).set c vc).set d vd

/-- One round: the columns, then the diagonals. -/
def round (v m : Block) : Block :=
  let v := mix v 0 4 8 12 m[0] m[1]
  let v := mix v 1 5 9 13 m[2] m[3]
  let v := mix v 2 6 10 14 m[4] m[5]
  let v := mix v 3 7 11 15 m[6] m[7]
  let v := mix v 0 5 10 15 m[8] m[9]
  let v := mix v 1 6 11 12 m[10] m[11]
  let v := mix v 2 7 8 13 m[12] m[13]
  mix v 3 4 9 14 m[14] m[15]

/-- Order in which the next round takes the message words. -/
def shuffle (m : Block) : Block := #v[
  m[2], m[6], m[3], m[10], m[7], m[0], m[4], m[13],
  m[1], m[11], m[12], m[5], m[9], m[14], m[15], m[8]]

/-- The given number of rounds, with the message words shuffled in between. -/
def rounds : Nat → Block → Block → Block
  | 0, v, _ => v
  | count + 1, v, m => rounds count (round v m) (shuffle m)

/-- A block together with all that goes into its compression. -/
structure Node where
  chain : Chain
  block : Block
  length : Nat
  counter : Nat
  flags : UInt32

/-- The sixteen words that the rounds start from. -/
def Node.words (node : Node) : Block :=
  let h := node.chain
  let low := UInt32.ofNat node.counter
  let high := UInt32.ofNat (node.counter >>> 32)
  let length := UInt32.ofNat node.length
  let fixed := start.take 4
  let given := #v[low, high, length, node.flags]
  h ++ fixed ++ given

/-- The first half of the mixed words takes in the second half, and the second half
takes in the chain. -/
def feedForward (h : Chain) (v : Block) : Block := #v[
  v[0] ^^^ v[8], v[1] ^^^ v[9], v[2] ^^^ v[10], v[3] ^^^ v[11],
  v[4] ^^^ v[12], v[5] ^^^ v[13], v[6] ^^^ v[14], v[7] ^^^ v[15],
  v[8] ^^^ h[0], v[9] ^^^ h[1], v[10] ^^^ h[2], v[11] ^^^ h[3],
  v[12] ^^^ h[4], v[13] ^^^ h[5], v[14] ^^^ h[6], v[15] ^^^ h[7]]

def Node.compress (node : Node) : Block :=
  feedForward node.chain (rounds 7 node.words node.block)

def Node.value (node : Node) : Chain :=
  node.compress.take 8

/-- The words of a block of at most sixty-four bytes, with zeros after them. -/
def blockWords (bytes : Bytes) : Block :=
  let words := ((blocks 4 16 bytes).map fun w =>
    UInt32.ofNat (ofLittleEndian w)).toArray
  Vector.ofFn fun i => words.getD i.val 0

/-- The last node of a chunk that has `more` blocks before its last one. -/
def chunkNode (counter : Nat) : Nat → Chain → UInt32 → Bytes → Node
  | 0, chain, flags, bytes =>
      ⟨chain, blockWords bytes, bytes.length, counter, flags ||| chunkEnd⟩
  | more + 1, chain, flags, bytes =>
      let node : Node :=
        ⟨chain, blockWords (bytes.take blockBytes), blockBytes, counter, flags⟩
      chunkNode counter more node.value 0 (bytes.drop blockBytes)

def leaf (counter : Nat) (chunk : Bytes) : Node :=
  chunkNode counter ((chunk.length - 1) / blockBytes) start chunkStart chunk

def parent (left right : Chain) : Node :=
  ⟨start, left ++ right, blockBytes, 0, innerNode⟩

def Node.outputBlock (root : Node) (position : Nat) : Bytes :=
  ({ root with counter := position, flags := root.flags ||| rootNode } : Node)
    |>.compress.toList.flatMap fun w => littleEndian 4 w.toNat

/-- The digest of fixed size: the value of the root. -/
def Node.fixedOutput (root : Node) : Bytes :=
  ({ root with counter := 0, flags := root.flags ||| rootNode } : Node)
    |>.value.toList.flatMap fun w => littleEndian 4 w.toNat

/-- The first `size` bytes of the output of a root. -/
def Node.output (root : Node) (size : Nat) : Bytes :=
  squeeze 64 root.outputBlock (· + 1) 0 size

/-- Bytes in the left subtree over a message of more than one chunk. -/
def leftLength (length : Nat) : Nat :=
  chunkBytes <<< ((length - 1) / chunkBytes).log2

theorem leftLength_pos (length : Nat) : 0 < leftLength length := by
  rw [leftLength, Nat.shiftLeft_eq]
  exact Nat.mul_pos (by decide) (Nat.pow_pos (by decide))

theorem leftLength_lt {length : Nat} (hlong : chunkBytes < length) :
    leftLength length < length := by
  have hne : (length - 1) / chunkBytes ≠ 0 := by
    have : 1 ≤ (length - 1) / chunkBytes :=
      (Nat.le_div_iff_mul_le (by decide)).2 (by omega)
    omega
  have hpow := Nat.log2_self_le hne
  have hmul := Nat.mul_le_mul_left chunkBytes hpow
  have hdiv := Nat.mul_div_le (length - 1) chunkBytes
  rw [leftLength, Nat.shiftLeft_eq]
  omega

/-- The root of the tree over a message whose first chunk has a given position. -/
def tree (counter : Nat) (message : Bytes) : Node :=
  if _ : chunkBytes < message.length then
    let left := leftLength message.length
    parent (tree counter (message.take left)).value
      (tree (counter + left / chunkBytes) (message.drop left)).value
  else
    leaf counter message
termination_by message.length
decreasing_by
  · have := leftLength_lt ‹chunkBytes < message.length›
    simp only [List.length_take]
    omega
  · have := leftLength_pos message.length
    simp only [List.length_drop]
    omega

def digest (message : Bytes) : Bytes :=
  (tree 0 message).fixedOutput

/-- The first `size` bytes of the output stream for a message. -/
def extended (message : Bytes) (size : Nat) : Bytes :=
  (tree 0 message).output size

/-- A complete subtree of `2 ^ height` chunks. -/
structure Subtree where
  height : Nat
  value : Chain

/-- The subtrees over the chunks so far, the last and smallest first.  Their
heights fall from the oldest to the newest. -/
structure Forest where
  count : Nat
  trees : List Subtree

/-- Add a subtree and join it with its neighbours of the same height. -/
def join (new : Subtree) : List Subtree → List Subtree
  | [] => [new]
  | last :: rest =>
      if last.height = new.height then
        join ⟨new.height + 1, (parent last.value new.value).value⟩ rest
      else
        new :: last :: rest

/-- Add the next whole chunk. -/
def Forest.add (forest : Forest) (chunk : Bytes) : Forest :=
  ⟨forest.count + 1, join ⟨0, (leaf forest.count chunk).value⟩ forest.trees⟩

/-- The root over a forest and the last chunk. -/
def Forest.root (forest : Forest) (last : Bytes) : Node :=
  forest.trees.foldl (fun node left => parent left.value node.value)
    (leaf forest.count last)

/-- BLAKE3 taken chunk by chunk, finished by what the root gives. -/
def blockHashOf (output : Node → Nat → Bytes) : BlockHash where
  State := Forest
  blockSize := chunkBytes
  start := ⟨0, []⟩
  absorb := Forest.add
  finish forest last size := output (forest.root last) size

/-- BLAKE3 with digests of thirty-two bytes, whatever size is asked for. -/
def blockHash : BlockHash := blockHashOf fun root _ => root.fixedOutput

/-- BLAKE3 with digests of any size. -/
def extendedBlockHash : BlockHash := blockHashOf Node.output

end MerkleStack.Blake3
