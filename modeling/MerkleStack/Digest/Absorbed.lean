/-
Hashes that take their message block by block, and the part of a message that
has been read so far.  Reading is a fold over the single bytes, so how a message
was cut into writes cannot matter.
-/
import MerkleStack.Bytes

namespace MerkleStack

/-- A hash that absorbs its message in blocks of one size.  The last block, which
is empty only for the empty message, goes to `finish` together with the wanted
digest size. -/
structure BlockHash where
  State : Type
  blockSize : Nat
  start : State
  absorb : State → Bytes → State
  finish : State → Bytes → Nat → Bytes

/-- A message read so far: the state after its whole blocks, and the bytes that
wait.  A full block waits too, until it is known not to be the last. -/
structure Absorbed (hash : BlockHash) where
  state : hash.State
  waiting : Array UInt8

namespace Absorbed

variable {hash : BlockHash}

def empty (hash : BlockHash) : Absorbed hash :=
  ⟨hash.start, #[]⟩

def push (read : Absorbed hash) (b : UInt8) : Absorbed hash :=
  if read.waiting.size = hash.blockSize then
    ⟨hash.absorb read.state read.waiting.toList, #[b]⟩
  else
    ⟨read.state, read.waiting.push b⟩

def write (read : Absorbed hash) (bytes : Bytes) : Absorbed hash :=
  bytes.foldl push read

def finish (read : Absorbed hash) (size : Nat) : Bytes :=
  hash.finish read.state read.waiting.toList size

@[simp] theorem write_nil (read : Absorbed hash) : read.write [] = read := rfl

@[simp] theorem write_append (read : Absorbed hash) (first second : Bytes) :
    read.write (first ++ second) = (read.write first).write second :=
  List.foldl_append

private theorem push_write_empty (hsize : 0 < hash.blockSize) (message : Bytes)
    (b : UInt8) {count next : Nat}
    (hcount : count = (message.length - 1) / hash.blockSize)
    (hnext : next = message.length / hash.blockSize) :
    push ⟨(blocks hash.blockSize count message).foldl hash.absorb hash.start,
        (message.drop (count * hash.blockSize)).toArray⟩ b =
      ⟨(blocks hash.blockSize next (message ++ [b])).foldl hash.absorb hash.start,
        ((message ++ [b]).drop (next * hash.blockSize)).toArray⟩ := by
  have hle := Nat.div_mul_le_self (message.length - 1) hash.blockSize
  have hlt := Nat.lt_div_mul_add hsize (a := message.length - 1)
  rw [← hcount] at hle hlt
  have hsucc : (count + 1) * hash.blockSize = count * hash.blockSize + hash.blockSize :=
    Nat.succ_mul count hash.blockSize
  rw [push]
  simp only [List.size_toArray, List.length_drop]
  split
  · have hstep : next = count + 1 := by
      have hlength : message.length = (count + 1) * hash.blockSize := by omega
      rw [hnext, hlength, Nat.mul_div_cancel _ hsize]
    have hone : blocks hash.blockSize 1 (message.drop (count * hash.blockSize)) =
        [message.drop (count * hash.blockSize)] := by
      rw [blocks, blocks, List.take_of_length_le]
      rw [List.length_drop]
      omega
    have hrest : (message ++ [b]).drop ((count + 1) * hash.blockSize) = [b] := by
      rw [List.drop_append_of_le_length (by omega), List.drop_of_length_le (by omega),
        List.nil_append]
    rw [hstep, hrest, blocks_append _ _ _ _ (by omega), blocks_add, hone,
      List.foldl_append]
    rfl
  · have hstep : next = count := by
      rw [hnext]
      apply Nat.div_eq_of_lt_le <;> omega
    rw [hstep, blocks_append _ _ _ _ (by omega),
      List.drop_append_of_le_length (by omega), List.push_toArray]

/-- All blocks of a message before its last one are absorbed, and the last one
waits. -/
theorem write_empty (hsize : 0 < hash.blockSize) (message : Bytes) {count : Nat}
    (hcount : count = (message.length - 1) / hash.blockSize) :
    (empty hash).write message =
      ⟨(blocks hash.blockSize count message).foldl hash.absorb hash.start,
        (message.drop (count * hash.blockSize)).toArray⟩ := by
  rw [← List.reverse_reverse message] at hcount ⊢
  generalize message.reverse = reversed at hcount ⊢
  induction reversed generalizing count with
  | nil =>
      rw [List.reverse_nil, List.length_nil, Nat.zero_sub, Nat.zero_div] at hcount
      rw [hcount, Nat.zero_mul]
      rfl
  | cons b rest ih =>
      rw [List.reverse_cons, List.length_append, List.length_singleton,
        Nat.add_sub_cancel] at hcount
      rw [List.reverse_cons, write_append, ih rfl]
      exact push_write_empty hsize rest.reverse b rfl hcount

end Absorbed

end MerkleStack
