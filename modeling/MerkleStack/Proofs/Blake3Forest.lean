/-
BLAKE3 taken chunk by chunk gives the tree over the whole message.  A run of
`2 ^ height` chunks joins into one complete subtree, and the subtrees of a forest
are the left subtrees on the way from the root to the last chunk.
-/
import Mathlib
import MerkleStack.Digest.Blake3

namespace MerkleStack.Blake3

theorem tree_of_le {message : Bytes} (counter : Nat)
    (hshort : message.length ≤ chunkBytes) : tree counter message = leaf counter message := by
  rw [tree, dif_neg (Nat.not_lt.2 hshort)]

theorem tree_of_lt {message : Bytes} (counter : Nat)
    (hlong : chunkBytes < message.length) :
    tree counter message =
      parent (tree counter (message.take (leftLength message.length))).value
        (tree (counter + leftLength message.length / chunkBytes)
          (message.drop (leftLength message.length))).value := by
  rw [tree, dif_pos hlong]

/-- With `count` chunks before the last one, the left subtree has the largest power
of two of chunks up to `count`. -/
theorem leftLength_eq {length count height : Nat} (hcount : (length - 1) / chunkBytes = count)
    (hlow : 2 ^ height ≤ count) (hhigh : count < 2 ^ (height + 1)) :
    leftLength length = 2 ^ height * chunkBytes := by
  have hne : count ≠ 0 := by
    have : 0 < 2 ^ height := Nat.two_pow_pos height
    omega
  have hlog : count.log2 = height := by
    apply Nat.le_antisymm
    · exact Nat.lt_succ_iff.1 ((Nat.log2_lt hne).2 hhigh)
    · exact (Nat.le_log2 hne).2 hlow
  rw [leftLength, hcount, hlog, Nat.shiftLeft_eq, Nat.mul_comm]

/-- The tree over whole chunks and a last one splits after the largest power of two
of whole chunks. -/
theorem tree_append {left right : Bytes} {count height : Nat} (counter : Nat)
    (hleft : left.length = 2 ^ height * chunkBytes)
    (hcount : ((left ++ right).length - 1) / chunkBytes = count)
    (hlow : 2 ^ height ≤ count) (hhigh : count < 2 ^ (height + 1)) :
    tree counter (left ++ right) =
      parent (tree counter left).value (tree (counter + 2 ^ height) right).value := by
  have hpos : 0 < 2 ^ height := Nat.two_pow_pos height
  have hlong : chunkBytes < (left ++ right).length := by
    have hone : 1 ≤ ((left ++ right).length - 1) / chunkBytes := by
      rw [hcount]
      omega
    have hmul := (Nat.le_div_iff_mul_le (by decide)).1 hone
    rw [chunkBytes] at hmul ⊢
    omega
  rw [tree_of_lt counter hlong, leftLength_eq hcount hlow hhigh, ← hleft,
    List.take_left, List.drop_left, hleft, Nat.mul_div_cancel _ (by decide)]

theorem join_of_lt {new : Subtree} {trees : List Subtree}
    (hheight : ∀ old ∈ trees.head?, new.height < old.height) :
    join new trees = new :: trees := by
  cases trees with
  | nil => rfl
  | cons old rest =>
      have hlt := hheight old rfl
      rw [join, if_neg (by omega)]

theorem join_same {height : Nat} (old new : Chain) (trees : List Subtree) :
    join ⟨height, new⟩ (⟨height, old⟩ :: trees) =
      join ⟨height + 1, (parent old new).value⟩ trees := by
  rw [join, if_pos rfl]

private theorem length_flatten_chunks {chunks : List Bytes}
    (hchunks : ∀ chunk ∈ chunks, chunk.length = chunkBytes) :
    chunks.flatten.length = chunks.length * chunkBytes := by
  induction chunks with
  | nil => simp
  | cons chunk rest ih =>
      rw [List.flatten_cons, List.length_append, hchunks chunk List.mem_cons_self,
        ih fun other hmem => hchunks other (List.mem_cons_of_mem _ hmem),
        List.length_cons, Nat.succ_mul, Nat.add_comm]

/-- A run of `2 ^ height` chunks becomes one complete subtree, which then joins the
forest. -/
theorem foldl_add_complete (height counter : Nat) {chunks : List Bytes}
    {trees : List Subtree} (hlength : chunks.length = 2 ^ height)
    (hchunks : ∀ chunk ∈ chunks, chunk.length = chunkBytes)
    (hheight : ∀ old ∈ trees.head?, height ≤ old.height) :
    chunks.foldl Forest.add ⟨counter, trees⟩ =
      ⟨counter + 2 ^ height,
        join ⟨height, (tree counter chunks.flatten).value⟩ trees⟩ := by
  induction height generalizing counter chunks trees with
  | zero =>
      obtain ⟨chunk, rfl⟩ := List.length_eq_one_iff.1 hlength
      have hchunk := hchunks chunk List.mem_cons_self
      rw [List.flatten_singleton, tree_of_le counter (Nat.le_of_eq hchunk)]
      rfl
  | succ height ih =>
      have hpow : 2 ^ (height + 1) = 2 ^ height + 2 ^ height := by omega
      have hpos : 0 < 2 ^ height := Nat.two_pow_pos height
      obtain ⟨first, second, rfl, hfirst⟩ :
          ∃ first second, chunks = first ++ second ∧ first.length = 2 ^ height :=
        ⟨chunks.take (2 ^ height), chunks.drop (2 ^ height),
          (List.take_append_drop _ _).symm, by rw [List.length_take]; omega⟩
      rw [List.length_append] at hlength
      have hleft : ∀ chunk ∈ first, chunk.length = chunkBytes := fun chunk hmem =>
        hchunks chunk (List.mem_append_left _ hmem)
      have hright : ∀ chunk ∈ second, chunk.length = chunkBytes := fun chunk hmem =>
        hchunks chunk (List.mem_append_right _ hmem)
      have hsecond : second.length = 2 ^ height := by omega
      have hbytes : first.flatten.length = 2 ^ height * chunkBytes := by
        rw [length_flatten_chunks hleft, hfirst]
      have hcount : ((first.flatten ++ second.flatten).length - 1) / chunkBytes =
          2 ^ (height + 1) - 1 := by
        rw [List.length_append, hbytes, length_flatten_chunks hright, hsecond, ← Nat.add_mul,
          ← hpow, chunkBytes]
        omega
      have htrees : ∀ old ∈ trees.head?, height < old.height := hheight
      rw [List.foldl_append, ih counter hfirst hleft fun old hmem => (htrees old hmem).le,
        join_of_lt htrees, ih _ hsecond hright, join_same, List.flatten_append,
        tree_append counter hbytes hcount (by omega) (by omega), Nat.add_assoc, ← hpow]
      intro old hmem
      rw [List.head?_cons, Option.mem_some_iff] at hmem
      exact hmem ▸ le_rfl

/-- The root over a forest and some more chunks: the tree over these chunks, with
the subtrees of the forest to its left. -/
theorem root_foldl_add (counter : Nat) {chunks : List Bytes} {last : Bytes}
    {trees : List Subtree} (hchunks : ∀ chunk ∈ chunks, chunk.length = chunkBytes)
    (hlast : last.length ≤ chunkBytes) (hnonempty : chunks ≠ [] → last ≠ [])
    (hheight : ∀ old ∈ trees.head?, chunks.length < 2 ^ old.height) :
    (chunks.foldl Forest.add ⟨counter, trees⟩).root last =
      trees.foldl (fun node left => parent left.value node.value)
        (tree counter (chunks.flatten ++ last)) := by
  induction hcount : chunks.length using Nat.strong_induction_on
    generalizing counter chunks trees with
  | h count ih =>
      rcases Nat.eq_zero_or_pos count with hzero | hpos
      · have hnil : chunks = [] := List.length_eq_zero_iff.1 (by omega)
        rw [hnil, List.flatten_nil, List.nil_append, tree_of_le counter hlast]
        rfl
      · obtain ⟨height, hlow, hhigh⟩ : ∃ height, 2 ^ height ≤ count ∧ count < 2 ^ (height + 1) :=
          ⟨count.log2, Nat.log2_self_le (by omega), Nat.lt_log2_self⟩
        have hpow : 2 ^ (height + 1) = 2 ^ height + 2 ^ height := by omega
        obtain ⟨first, second, rfl, hfirst⟩ :
            ∃ first second, chunks = first ++ second ∧ first.length = 2 ^ height :=
          ⟨chunks.take (2 ^ height), chunks.drop (2 ^ height),
            (List.take_append_drop _ _).symm, by rw [List.length_take]; omega⟩
        rw [List.length_append] at hcount
        have hleft : ∀ chunk ∈ first, chunk.length = chunkBytes := fun chunk hmem =>
          hchunks chunk (List.mem_append_left _ hmem)
        have hright : ∀ chunk ∈ second, chunk.length = chunkBytes := fun chunk hmem =>
          hchunks chunk (List.mem_append_right _ hmem)
        have hbytes : first.flatten.length = 2 ^ height * chunkBytes := by
          rw [length_flatten_chunks hleft, hfirst]
        have hsome : 0 < last.length := by
          apply List.length_pos_iff.2
          apply hnonempty
          intro hnil
          have htwo := Nat.two_pow_pos height
          rw [(List.append_eq_nil_iff.1 hnil).1, List.length_nil] at hfirst
          omega
        have hchunkcount : ((first.flatten ++ (second.flatten ++ last)).length - 1) /
            chunkBytes = count := by
          rw [List.length_append, List.length_append, hbytes, length_flatten_chunks hright,
            ← Nat.add_assoc, ← Nat.add_mul, ← hfirst, hcount]
          rw [chunkBytes] at hlast ⊢
          omega
        have htrees : ∀ old ∈ trees.head?, height < old.height := by
          intro old hmem
          have hlt := hheight old hmem
          rw [List.length_append, hcount] at hlt
          exact (Nat.pow_lt_pow_iff_right (by decide)).1 (lt_of_le_of_lt hlow hlt)
        rw [List.foldl_append,
          foldl_add_complete height counter hfirst hleft fun old hmem => (htrees old hmem).le,
          join_of_lt htrees,
          ih second.length (by omega) _ hright _ _ rfl, List.foldl_cons,
          List.flatten_append, List.append_assoc,
          tree_append counter hbytes hchunkcount hlow hhigh]
        · intro _ hnil
          rw [hnil] at hsome
          exact absurd hsome (Nat.lt_irrefl 0)
        · intro old hmem
          rw [List.head?_cons, Option.mem_some_iff] at hmem
          rw [← hmem]
          change second.length < 2 ^ height
          omega

/-- Taken chunk by chunk, a message has the root that it has as a whole. -/
theorem finish_write (output : Node → Nat → Bytes) (message : Bytes) (size : Nat) :
    ((Absorbed.empty (blockHashOf output)).write message).finish size =
      output (tree 0 message) size := by
  generalize hcount : (message.length - 1) / chunkBytes = count
  have hle : count * chunkBytes ≤ message.length := by
    rw [chunkBytes] at hcount ⊢
    omega
  rw [Absorbed.write_empty (show 0 < chunkBytes by decide) message hcount.symm]
  change output (((blocks chunkBytes count message).foldl Forest.add ⟨0, []⟩).root
    (message.drop (count * chunkBytes))) size = _
  rw [root_foldl_add 0 (fun chunk hmem => length_of_mem_blocks hle hmem), List.foldl_nil,
    ← blocks_take _ _ _ hle, flatten_blocks, List.take_append_drop]
  · rw [List.length_take]
    omega
  · rw [List.length_drop, chunkBytes] at *
    omega
  · intro hne hnil
    apply hne
    have hlength := congrArg List.length hnil
    rw [List.length_drop, List.length_nil] at hlength
    rw [chunkBytes] at hcount hlength hle
    have hzero : count = 0 := by omega
    rw [hzero]
    rfl
  · intro old hmem
    exact absurd hmem (by simp)

end MerkleStack.Blake3
