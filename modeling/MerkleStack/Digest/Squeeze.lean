/-
Outputs of any size read off one stream of blocks.  The digest of size `n` is the
first `n` bytes of the stream, so digests of different sizes are prefixes of each
other.
-/
import MerkleStack.Bytes

namespace MerkleStack

universe u

variable {σ : Type u}

/-- The first `count` blocks of the stream that `emit` shows and `next` drives. -/
def streamBlocks (emit : σ → Bytes) (next : σ → σ) : Nat → σ → List Bytes
  | 0, _ => []
  | count + 1, state => emit state :: streamBlocks emit next count (next state)

/-- The first `size` bytes of the stream whose blocks have `width` bytes. -/
def squeeze (width : Nat) (emit : σ → Bytes) (next : σ → σ) (state : σ)
    (size : Nat) : Bytes :=
  (streamBlocks emit next ((size + width - 1) / width) state).flatten.take size

theorem length_flatten_streamBlocks {width : Nat} {emit : σ → Bytes}
    (hemit : ∀ state, (emit state).length = width) (next : σ → σ)
    (count : Nat) (state : σ) :
    (streamBlocks emit next count state).flatten.length = count * width := by
  induction count generalizing state with
  | zero => simp [streamBlocks]
  | succ count ih =>
      rw [streamBlocks, List.flatten_cons, List.length_append, hemit, ih,
        Nat.succ_mul, Nat.add_comm]

theorem length_squeeze {width : Nat} (hwidth : 0 < width) {emit : σ → Bytes}
    (hemit : ∀ state, (emit state).length = width) (next : σ → σ) (state : σ)
    (size : Nat) : (squeeze width emit next state size).length = size := by
  have hcover := Nat.div_add_mod (size + width - 1) width
  have hmod := Nat.mod_lt (size + width - 1) hwidth
  have hcomm := Nat.mul_comm width ((size + width - 1) / width)
  rw [squeeze, List.length_take, length_flatten_streamBlocks hemit]
  omega

private theorem streamBlocks_add (emit : σ → Bytes) (next : σ → σ)
    (count more : Nat) (state : σ) :
    ∃ rest, streamBlocks emit next (count + more) state =
      streamBlocks emit next count state ++ rest := by
  induction count generalizing state with
  | zero => exact ⟨_, rfl⟩
  | succ count ih =>
      obtain ⟨rest, hrest⟩ := ih (next state)
      exact ⟨rest, by
        rw [Nat.add_right_comm, streamBlocks, hrest, streamBlocks, List.cons_append]⟩

/-- A shorter output is a prefix of a longer one. -/
theorem take_squeeze {width : Nat} (hwidth : 0 < width) {emit : σ → Bytes}
    (hemit : ∀ state, (emit state).length = width) (next : σ → σ) (state : σ)
    {short long : Nat} (hle : short ≤ long) :
    (squeeze width emit next state long).take short =
      squeeze width emit next state short := by
  have hcount : (short + width - 1) / width ≤ (long + width - 1) / width :=
    Nat.div_le_div_right (by omega)
  obtain ⟨more, hmore⟩ := Nat.le.dest hcount
  obtain ⟨rest, hrest⟩ := streamBlocks_add emit next
    ((short + width - 1) / width) more state
  have hcover := length_squeeze hwidth hemit next state short
  rw [squeeze, List.length_take] at hcover
  rw [squeeze, squeeze, ← hmore, hrest, List.take_take, Nat.min_eq_left hle,
    List.flatten_append, List.take_append_of_le_length (by omega)]

end MerkleStack
