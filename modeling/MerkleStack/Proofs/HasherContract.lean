/-
The contract of hashers.  All that a slot of a bench answers follows from two things:
the bytes written since its last reset, and whether their digest was taken.  Functions
differ in what they keep after a digest, and no history of actions can show it.
-/
import MerkleStack.Hasher.Bench
import MerkleStack.Proofs.Absorption
import MerkleStack.Proofs.DigestLength

namespace MerkleStack

/-- A hasher by its contract: the bytes written since its last reset, and whether their
digest was taken. -/
structure Slot where
  pending : Bytes
  used : Bool
deriving DecidableEq, Repr

/-- A slot that nothing was written to. -/
def Slot.fresh : Slot := ⟨[], false⟩

/-- The slots of a bench by their contract, and the one that actions go to. -/
structure Ledger where
  slots : List Slot
  current : Nat
  current_lt : current < slots.length

namespace Ledger

def start : Ledger :=
  ⟨[Slot.fresh], 0, Nat.zero_lt_one⟩

def slot (ledger : Ledger) : Slot :=
  ledger.slots.get ⟨ledger.current, ledger.current_lt⟩

def put (ledger : Ledger) (slot : Slot) : Ledger :=
  ⟨ledger.slots.set ledger.current slot, ledger.current, by
    rw [List.length_set]
    exact ledger.current_lt⟩

/-- The ledger with one more slot, equal to the current one. -/
def clone (ledger : Ledger) : Ledger :=
  ⟨ledger.slots ++ [ledger.slot], ledger.current, by
    rw [List.length_append]
    exact Nat.lt_add_right _ ledger.current_lt⟩

/-- What an action has to answer. -/
def answer (function : HashFunction) (size : Nat) (ledger : Ledger) :
    Bench.Action → Bench.Reply
  | .write _ => if ledger.slot.used then .refused .hasherSpent else .done
  | .sum =>
      if ledger.slot.used then .refused .hasherSpent
      else .digest (function.digest size ledger.slot.pending)
  | .reset => .done
  | .size => .size (function.digestSize size)
  | .describe => .text (Hasher.new function size).describe
  | .clone => .slot ledger.slots.length
  | .use slot => if slot < ledger.slots.length then .done else .noSlot

def enter (ledger : Ledger) : Bench.Action → Ledger
  | .write bytes =>
      if ledger.slot.used then ledger
      else ledger.put ⟨ledger.slot.pending ++ bytes, false⟩
  | .sum => if ledger.slot.used then ledger else ledger.put ⟨ledger.slot.pending, true⟩
  | .reset => ledger.put Slot.fresh
  | .size | .describe => ledger
  | .clone => ledger.clone
  | .use slot =>
      if hslot : slot < ledger.slots.length then ⟨ledger.slots, slot, hslot⟩ else ledger

def after (ledger : Ledger) (actions : List Bench.Action) : Ledger :=
  actions.foldl enter ledger

/-- What some actions in turn have to answer. -/
def answers (function : HashFunction) (size : Nat) (ledger : Ledger) :
    List Bench.Action → List Bench.Reply
  | [] => []
  | action :: rest =>
      ledger.answer function size action :: (ledger.enter action).answers function size rest

end Ledger

namespace Hasher

def ofSlot (function : HashFunction) (size : Nat) (slot : Slot) : Hasher :=
  let written : Hasher :=
    { new function size with read := (Absorbed.empty _).write slot.pending }
  if slot.used then written.spend else written

variable (function : HashFunction) (size : Nat)

theorem ofSlot_size (slot : Slot) :
    (ofSlot function size slot).size = function.digestSize size := by
  rcases slot with ⟨pending, _ | _⟩ <;> rfl

theorem ofSlot_describe (slot : Slot) :
    (ofSlot function size slot).describe = (new function size).describe := by
  rcases slot with ⟨pending, _ | _⟩ <;> rfl

/-- A reset gives a fresh hasher, whatever was left of the one before. -/
theorem reset_ofSlot (slot : Slot) :
    (ofSlot function size slot).reset = ofSlot function size Slot.fresh := by
  rcases slot with ⟨pending, _ | _⟩ <;> rfl

theorem write_ofSlot (slot : Slot) (bytes : Bytes) :
    (ofSlot function size slot).write bytes =
      if slot.used then .error .hasherSpent
      else .ok (ofSlot function size ⟨slot.pending ++ bytes, false⟩) := by
  rcases slot with ⟨pending, _ | _⟩
  · simp [ofSlot, write, new]
  · rfl

theorem sum_ofSlot (slot : Slot) :
    (ofSlot function size slot).sum =
      if slot.used then .error .hasherSpent
      else .ok (function.digest size slot.pending,
        ofSlot function size ⟨slot.pending, true⟩) := by
  rcases slot with ⟨pending, _ | _⟩
  · have hdigest : ((Absorbed.empty function.blockHash).write pending).finish
        (function.digestSize size) = function.digest size pending := by
      rw [HashFunction.finish_write, HashFunction.digest_digestSize]
    rw [← hdigest]
    rfl
  · rfl

end Hasher

namespace Bench

def ofLedger (function : HashFunction) (size : Nat) (ledger : Ledger) : Bench :=
  ⟨ledger.slots.map (Hasher.ofSlot function size), ledger.current, by
    rw [List.length_map]
    exact ledger.current_lt⟩

def after (bench : Bench) (actions : List Action) : Bench :=
  actions.foldl (fun bench action => (bench.act action).2) bench

/-- Whether a reply that tells a size tells `size`, be it by the digest that it holds. -/
def Reply.Sized (size : Nat) : Reply → Prop
  | .digest bytes => bytes.length = size
  | .size count => count = size
  | _ => True

variable (function : HashFunction) (size : Nat)

theorem hasher_ofLedger (ledger : Ledger) :
    (ofLedger function size ledger).hasher = Hasher.ofSlot function size ledger.slot := by
  simp [hasher, ofLedger, Ledger.slot]

theorem put_ofLedger (ledger : Ledger) (slot : Slot) :
    (ofLedger function size ledger).put (Hasher.ofSlot function size slot) =
      ofLedger function size (ledger.put slot) := by
  simp [put, ofLedger, Ledger.put]

theorem clone_ofLedger (ledger : Ledger) :
    (ofLedger function size ledger).clone = ofLedger function size ledger.clone := by
  simp only [clone, hasher_ofLedger]
  simp [ofLedger, Ledger.clone]

/-- Every action answers by the ledger and leaves a bench that the ledger still tells. -/
theorem act_ofLedger (ledger : Ledger) (action : Action) :
    (ofLedger function size ledger).act action =
      (ledger.answer function size action, ofLedger function size (ledger.enter action)) := by
  cases action with
  | write bytes =>
      rw [act, hasher_ofLedger, Hasher.write_ofSlot, Ledger.answer, Ledger.enter]
      by_cases hused : ledger.slot.used = true
      · simp [hused]
      · simp [hused, put_ofLedger]
  | sum =>
      rw [act, hasher_ofLedger, Hasher.sum_ofSlot, Ledger.answer, Ledger.enter]
      by_cases hused : ledger.slot.used = true
      · simp [hused]
      · simp [hused, put_ofLedger]
  | reset =>
      rw [act, hasher_ofLedger, Hasher.reset_ofSlot, put_ofLedger]
      rfl
  | size =>
      rw [act, hasher_ofLedger, Hasher.ofSlot_size]
      rfl
  | describe =>
      rw [act, hasher_ofLedger, Hasher.ofSlot_describe]
      rfl
  | clone =>
      rw [act, clone_ofLedger]
      simp [Ledger.answer, Ledger.enter, ofLedger]
  | use slot =>
      by_cases hslot : slot < ledger.slots.length
      · simp [act, Ledger.answer, Ledger.enter, ofLedger, hslot]
      · simp [act, Ledger.answer, Ledger.enter, ofLedger, hslot]

theorem after_ofLedger (ledger : Ledger) (actions : List Action) :
    (ofLedger function size ledger).after actions =
      ofLedger function size (ledger.after actions) := by
  induction actions generalizing ledger with
  | nil => rfl
  | cons action rest ih =>
      rw [after, List.foldl_cons, act_ofLedger]
      exact ih (ledger.enter action)

theorem replies_ofLedger (ledger : Ledger) (actions : List Action) :
    (ofLedger function size ledger).replies actions =
      ledger.answers function size actions := by
  induction actions generalizing ledger with
  | nil => rfl
  | cons action rest ih => simp only [replies, Ledger.answers, act_ofLedger, ih]

/-- A refused action changes nothing. -/
theorem act_of_refused {bench : Bench} {action : Action} {cause : Error}
    (hrefused : (bench.act action).1 = .refused cause) : (bench.act action).2 = bench := by
  cases action with
  | write bytes =>
      cases hwrite : bench.hasher.write bytes <;> simp_all [act]
  | sum =>
      cases hsum : bench.hasher.sum <;> simp_all [act]
  | use slot =>
      by_cases hslot : slot < bench.slots.length <;> simp_all [act]
  | reset => cases hrefused
  | size => cases hrefused
  | describe => cases hrefused
  | clone => cases hrefused

/-- What an action can do to a bench. -/
theorem act_cases (bench : Bench) (action : Action) :
    (bench.act action).2 = bench ∨
      (∃ hasher, (bench.act action).2 = bench.put hasher) ∨
      (bench.act action).2 = bench.clone ∨
      ∃ slot, ∃ hslot : slot < bench.slots.length,
        action = .use slot ∧ (bench.act action).2 = ⟨bench.slots, slot, hslot⟩ := by
  cases action with
  | write bytes =>
      cases hwrite : bench.hasher.write bytes with
      | ok hasher => exact Or.inr (Or.inl ⟨hasher, by simp [act, hwrite]⟩)
      | error cause => exact Or.inl (by simp [act, hwrite])
  | sum =>
      cases hsum : bench.hasher.sum with
      | ok result => exact Or.inr (Or.inl ⟨result.2, by simp [act, hsum]⟩)
      | error cause => exact Or.inl (by simp [act, hsum])
  | reset => exact Or.inr (Or.inl ⟨bench.hasher.reset, rfl⟩)
  | size => exact Or.inl rfl
  | describe => exact Or.inl rfl
  | clone => exact Or.inr (Or.inr (Or.inl rfl))
  | use slot =>
      by_cases hslot : slot < bench.slots.length
      · exact Or.inr (Or.inr (Or.inr ⟨slot, hslot, rfl, by simp [act, hslot]⟩))
      · exact Or.inl (by simp [act, hslot])

/-- An action leaves every slot but the current one as it was. -/
theorem act_slots_of_ne (bench : Bench) (action : Action) {other : Nat}
    (hother : other ≠ bench.current) (hlt : other < bench.slots.length) :
    (bench.act action).2.slots[other]? = bench.slots[other]? := by
  rcases act_cases bench action with hsame | ⟨hasher, hput⟩ | hclone | ⟨slot, hslot, _, huse⟩
  · rw [hsame]
  · rw [hput]
    exact List.getElem?_set_ne hother.symm
  · rw [hclone]
    exact List.getElem?_append_left hlt
  · rw [huse]

theorem act_current_ne {bench : Bench} {action : Action} {other : Nat}
    (hother : other ≠ bench.current) (haction : action ≠ .use other) :
    other ≠ (bench.act action).2.current := by
  rcases act_cases bench action with hsame | ⟨hasher, hput⟩ | hclone | ⟨slot, hslot, rfl, huse⟩
  · rw [hsame]
    exact hother
  · rw [hput]
    exact hother
  · rw [hclone]
    exact hother
  · rw [huse]
    rintro rfl
    exact haction rfl

/-- Actions leave every slot as it was that does not become the current one. -/
theorem after_slots_of_ne {bench : Bench} {other : Nat} (hother : other ≠ bench.current)
    (hlt : other < bench.slots.length) {actions : List Action}
    (huse : Action.use other ∉ actions) :
    (bench.after actions).slots[other]? = bench.slots[other]? := by
  induction actions generalizing bench with
  | nil => rfl
  | cons action rest ih =>
      obtain ⟨hfirst, hrest⟩ := not_or.1 (mt List.mem_cons.2 huse)
      have hslot := act_slots_of_ne bench action hother hlt
      have hnext : other < (bench.act action).2.slots.length := by
        rw [List.getElem?_eq_getElem hlt] at hslot
        exact (List.getElem?_eq_some_iff.1 hslot).1
      rw [← hslot]
      exact ih (act_current_ne hother (Ne.symm hfirst)) hnext hrest

end Bench

namespace Ledger

theorem slot_put (ledger : Ledger) (slot : Slot) : (ledger.put slot).slot = slot := by
  simp [Ledger.slot, put]

/-- Writes in turn wait as one message. -/
theorem slot_after_writes (ledger : Ledger) (harmed : ledger.slot.used = false)
    (chunks : List Bytes) :
    (ledger.after (chunks.map .write)).slot = ⟨ledger.slot.pending ++ chunks.flatten, false⟩ := by
  induction chunks generalizing ledger with
  | nil => simp [after, ← harmed]
  | cons chunk rest ih =>
      have hnext : (ledger.enter (.write chunk)).slot = ⟨ledger.slot.pending ++ chunk, false⟩ := by
        simp [enter, harmed, slot_put]
      have hafter := ih (ledger.enter (.write chunk)) (by rw [hnext])
      rw [hnext] at hafter
      simpa [after] using hafter

theorem slot_after_reset (ledger : Ledger) (chunks : List Bytes) :
    (ledger.after (.reset :: chunks.map .write)).slot = ⟨chunks.flatten, false⟩ := by
  have hreset : (ledger.enter .reset).slot = Slot.fresh := slot_put ledger Slot.fresh
  have hwrites := slot_after_writes (ledger.enter .reset) (congrArg Slot.used hreset) chunks
  rw [hreset] at hwrites
  exact hwrites

theorem answer_sized (function : HashFunction) (size : Nat) (ledger : Ledger)
    (action : Bench.Action) :
    (ledger.answer function size action).Sized (function.digestSize size) := by
  cases action with
  | write bytes => cases hused : ledger.slot.used <;> simp [answer, hused, Bench.Reply.Sized]
  | sum =>
      cases hused : ledger.slot.used
      · simp [answer, hused, Bench.Reply.Sized, function.length_digest]
      · simp [answer, hused, Bench.Reply.Sized]
  | size => rfl
  | use slot =>
      by_cases hslot : slot < ledger.slots.length <;> simp [answer, hslot, Bench.Reply.Sized]
  | reset => trivial
  | describe => trivial
  | clone => trivial

theorem answers_sized (function : HashFunction) (size : Nat) (ledger : Ledger)
    (actions : List Bench.Action) :
    ∀ reply ∈ ledger.answers function size actions,
      reply.Sized (function.digestSize size) := by
  induction actions generalizing ledger with
  | nil => simp [answers]
  | cons action rest ih =>
      intro reply hmem
      rcases List.mem_cons.1 hmem with rfl | hmem
      · exact answer_sized function size ledger action
      · exact ih (ledger.enter action) reply hmem

end Ledger

/-- A hasher and its copies answer every history of actions by their contract, and their
states are what the contract tells of them.  Digests have the size that was told.  A
refused action changes nothing, and no action changes a slot that is not current.  After a
reset the digest is that of the bytes written since, however they were cut. -/
theorem Bench.replies_eq_answers (function : HashFunction) (size : Nat)
    (history : List Action) :
    let bench := (ofHasher (Hasher.new function size)).after history
    (ofHasher (Hasher.new function size)).replies history =
        Ledger.start.answers function size history ∧
      bench = ofLedger function size (Ledger.start.after history) ∧
      (∀ reply ∈ (ofHasher (Hasher.new function size)).replies history,
        reply.Sized (function.digestSize size)) ∧
      (∀ action cause, (bench.act action).1 = .refused cause → (bench.act action).2 = bench) ∧
      (∀ other < bench.slots.length, other ≠ bench.current →
        ∀ actions, Action.use other ∉ actions →
          (bench.after actions).slots[other]? = bench.slots[other]?) ∧
      ∀ chunks : List Bytes,
        ((bench.after (.reset :: chunks.map .write)).act .sum).1 =
          .digest (function.digest size chunks.flatten) := by
  intro bench
  have hstart : ofHasher (Hasher.new function size) = ofLedger function size Ledger.start := rfl
  have hbench : bench = ofLedger function size (Ledger.start.after history) :=
    after_ofLedger function size Ledger.start history
  have hreplies := replies_ofLedger function size Ledger.start history
  refine ⟨hreplies, hbench, ?_, ?_, ?_, ?_⟩
  · rw [hstart, hreplies]
    exact Ledger.answers_sized function size Ledger.start history
  · intro action cause hrefused
    exact act_of_refused hrefused
  · intro other hlt hother actions huse
    exact after_slots_of_ne hother hlt huse
  · intro chunks
    have hslot := Ledger.slot_after_reset (Ledger.start.after history) chunks
    rw [hbench, after_ofLedger, act_ofLedger]
    simp [Ledger.answer, hslot]

example : (Ledger.start.after [.write [1], .clone, .sum, .use 1, .write [2]]).slots =
    [⟨[1], true⟩, ⟨[1, 2], false⟩] := rfl

end MerkleStack
