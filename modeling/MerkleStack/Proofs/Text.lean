/-
Reading printed text back.  A number or a payload is printed in characters of one kind, and
it ends where a character of another kind follows; so it is told apart from what stands
behind it, whatever that is.
-/
import Mathlib
import MerkleStack.Hex

namespace MerkleStack

/-- All characters of a text are of some kind. -/
def Consists (kind : Char → Bool) (text : String) : Prop :=
  ∀ c ∈ text.toList, kind c = true

/-- A text does not begin with a character of some kind. -/
def Stops (kind : Char → Bool) (text : String) : Prop :=
  text.toList.takeWhile kind = []

theorem Consists.append {kind : Char → Bool} {first second : String}
    (hfirst : Consists kind first) (hsecond : Consists kind second) :
    Consists kind (first ++ second) := by
  intro c hc
  rw [String.toList_append, List.mem_append] at hc
  exact hc.elim (hfirst c) (hsecond c)

theorem Consists.mono {kind wider : Char → Bool} {text : String}
    (htext : Consists kind text) (hwider : ∀ c, kind c = true → wider c = true) :
    Consists wider text := by
  intro c hc
  exact hwider c (htext c hc)

/-- A character of another kind does not occur. -/
theorem Consists.ne {kind : Char → Bool} {text : String} {stop : Char}
    (htext : Consists kind text) (hstop : kind stop = false) : Consists (· != stop) text := by
  intro c hc
  rw [bne_iff_ne]
  rintro rfl
  exact Bool.false_ne_true (hstop.symm.trans (htext c hc))

/-- Two texts of one kind of characters are equal, and so is what stands behind them, if
neither is followed by a character of that kind. -/
theorem eq_of_append_eq {kind : Char → Bool} {text other rest others : String}
    (htext : Consists kind text) (hother : Consists kind other) (hrest : Stops kind rest)
    (hothers : Stops kind others) (heq : text ++ rest = other ++ others) :
    text = other ∧ rest = others := by
  have hfront := congrArg (fun whole => whole.toList.takeWhile kind) heq
  simp only [String.toList_append] at hfront
  rw [List.takeWhile_append_of_pos htext, List.takeWhile_append_of_pos hother, hrest, hothers,
    List.append_nil, List.append_nil] at hfront
  obtain rfl := String.toList_inj.1 hfront
  exact ⟨rfl, (String.append_right_inj text).1 heq⟩

theorem consists_repr (n : Nat) : Consists Char.isDigit n.repr := by
  intro c hc
  rw [Nat.repr_eq_ofList_toDigits, String.toList_ofList] at hc
  exact Nat.isDigit_of_mem_toDigits (by decide) (by decide) hc

/-- A decimal number ends where its digits end. -/
theorem repr_append_inj {n m : Nat} {rest others : String} (hrest : Stops Char.isDigit rest)
    (hothers : Stops Char.isDigit others) (heq : n.repr ++ rest = m.repr ++ others) :
    n = m ∧ rest = others := by
  obtain ⟨hrepr, hbehind⟩ :=
    eq_of_append_eq (consists_repr n) (consists_repr m) hrest hothers heq
  exact ⟨Nat.repr_injective hrepr, hbehind⟩

theorem isAlphanum_hexDigit : ∀ n < 16, (hexDigit n).isAlphanum = true := by
  decide

theorem hexDigit_inj : ∀ n < 16, ∀ m < 16, hexDigit n = hexDigit m → n = m := by
  decide

theorem hexByte_inj {b c : UInt8} (heq : hexByte b = hexByte c) : b = c := by
  have hb := b.toNat_lt
  have hc := c.toNat_lt
  simp only [hexByte, List.cons.injEq, and_true] at heq
  have hhigh := hexDigit_inj _ (by omega) _ (by omega) heq.1
  have hlow := hexDigit_inj _ (by omega) _ (by omega) heq.2
  rw [← UInt8.toNat_inj]
  omega

/-- Every byte takes two digits, so equal texts are cut in the same places. -/
theorem hex_injective {bytes others : Bytes} (heq : hex bytes = hex others) :
    bytes = others := by
  have hdigits := String.ofList_injective heq
  clear heq
  induction bytes generalizing others with
  | nil =>
      cases others with
      | nil => rfl
      | cons c others => cases hdigits
  | cons b bytes ih =>
      cases others with
      | nil => cases hdigits
      | cons c others =>
          rw [List.flatMap_cons, List.flatMap_cons] at hdigits
          obtain ⟨hbyte, hrest⟩ := List.append_inj hdigits rfl
          rw [hexByte_inj hbyte, ih hrest]

theorem consists_hex (bytes : Bytes) : Consists Char.isAlphanum (hex bytes) := by
  intro c hc
  rw [hex, String.toList_ofList, List.mem_flatMap] at hc
  obtain ⟨b, _, hc⟩ := hc
  have hb := b.toNat_lt
  simp only [hexByte, List.mem_cons, List.not_mem_nil, or_false] at hc
  rcases hc with rfl | rfl
  · exact isAlphanum_hexDigit _ (by omega)
  · exact isAlphanum_hexDigit _ (by omega)

end MerkleStack
