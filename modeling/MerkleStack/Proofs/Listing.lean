/-
What a listing tells.  Every part of a listing ends where a character follows that it cannot
hold, so the parts can be read back one after the other: the metadata, and for every op its
opcode and what that opcode shows of the other fields.  A run depends on nothing else, so
programs with the same listing are verified alike.
-/
import MerkleStack.Program.Listing
import MerkleStack.Proofs.Substitution
import MerkleStack.Proofs.Text

namespace MerkleStack

/-- Ops that agree in all that a listing shows of them.  It shows the payload for
`PUSH_BYTES` only, and the operand for any op but that one and `POP_CHILDREN_AND_HASH`. -/
structure Op.ListedAlike (op other : Op) : Prop where
  opcode_eq : op.opcode = other.opcode
  payload_eq : op.opcode? = some .pushBytes → op.payload = other.payload
  index_eq : op.opcode? ≠ some .pushBytes → op.opcode? ≠ some .hashChildren →
    op.index = other.index

section

variable {α : Type} {find : UInt32 → Option α} {name : α → String} {number : UInt32 → String}

/-- How a listing shows a number that may stand for something with a name. -/
def nameOrNumber (find : UInt32 → Option α) (name : α → String) (number : UInt32 → String)
    (id : UInt32) : String :=
  match find id with
  | some known => name known
  | none => number id

theorem nameOrNumber_inj {code : α → UInt32}
    (hcode : ∀ {id known}, find id = some known → code known = id)
    (hname : ∀ {known other}, name known = name other → known = other)
    (hnumber : ∀ {id other}, number id = number other → id = other)
    (hapart : ∀ known id, name known ≠ number id) {id other : UInt32}
    (heq : nameOrNumber find name number id = nameOrNumber find name number other) :
    id = other := by
  unfold nameOrNumber at heq
  cases hid : find id with
  | none =>
      cases hother : find other with
      | none =>
          simp only [hid, hother] at heq
          exact hnumber heq
      | some known =>
          simp only [hid, hother] at heq
          exact absurd heq.symm (hapart known id)
  | some known =>
      cases hother : find other with
      | none =>
          simp only [hid, hother] at heq
          exact absurd heq (hapart known other)
      | some same =>
          simp only [hid, hother] at heq
          obtain rfl := hname heq
          exact (hcode hid).symm.trans (hcode hother)

theorem consists_nameOrNumber {kind : Char → Bool} (hname : ∀ known, Consists kind (name known))
    (hnumber : ∀ id, Consists kind (number id)) (id : UInt32) :
    Consists kind (nameOrNumber find name number id) := by
  rw [nameOrNumber]
  split
  · exact hname _
  · exact hnumber id

end

/-- Whether a character can stand in a name, or in the number for one: a letter, a digit, or
one of a few marks. -/
def nameKind (c : Char) : Bool :=
  c.isAlphanum || ['_', '-', '#', '(', ')'].contains c

theorem nameKind_of_isDigit {c : Char} (hc : c.isDigit = true) : nameKind c = true := by
  simp [nameKind, Char.isAlphanum, hc]

theorem consists_nameKind_repr (n : Nat) : Consists nameKind n.repr :=
  (consists_repr n).mono fun _ => nameKind_of_isDigit

theorem HashFunction.consists_name (function : HashFunction) :
    Consists nameKind function.name := by
  cases function <;> simp [Consists, name, nameKind]

theorem eq_of_repr_toNat_eq {n m : UInt32} (heq : n.toNat.repr = m.toNat.repr) : n = m :=
  UInt32.toNat_inj.1 (Nat.repr_injective heq)

namespace Opcode

theorem mnemonic_inj {first second : Opcode} (heq : first.mnemonic = second.mnemonic) :
    first = second := by
  revert heq
  cases first <;> cases second <;> decide

theorem consists_mnemonic (opcode : Opcode) : Consists nameKind opcode.mnemonic := by
  cases opcode <;> simp [Consists, mnemonic, nameKind]

/-- How an opcode is shown that cannot be run. -/
def unknownText (code : UInt32) : String :=
  "UNKNOWN(" ++ (code.toNat.repr ++ ")")

theorem unknownText_inj {code other : UInt32} (heq : unknownText code = unknownText other) :
    code = other := by
  rw [unknownText, unknownText, String.append_right_inj, String.append_left_inj] at heq
  exact eq_of_repr_toNat_eq heq

theorem mnemonic_ne_unknownText (opcode : Opcode) (code : UInt32) :
    opcode.mnemonic ≠ unknownText code := by
  intro heq
  have hfirst := congrArg (fun text => text.toList.head?) heq
  cases opcode <;> simp [mnemonic, unknownText] at hfirst

theorem consists_unknownText (code : UInt32) : Consists nameKind (unknownText code) := by
  have hopen : Consists nameKind "UNKNOWN(" := by simp [Consists, nameKind]
  have hclose : Consists nameKind ")" := by simp [Consists, nameKind]
  exact hopen.append ((consists_nameKind_repr _).append hclose)

end Opcode

namespace Op

variable {op other : Op}

/-- The word that the text of an op begins with. -/
def word (op : Op) : String :=
  nameOrNumber Opcode.ofCode? Opcode.mnemonic Opcode.unknownText op.opcode

/-- What the text of an op shows behind the word. -/
def operandText (op : Op) : String :=
  match op.opcode? with
  | some .pushBytes => " " ++ hex op.payload
  | some .hashChildren => ""
  | _ => " " ++ op.index.toNat.repr

theorem text_eq (op : Op) : op.text = op.word ++ op.operandText := by
  have hclose : ") " = ")" ++ " " := by decide
  rw [text, instruction, word, nameOrNumber, operandText, ← opcode?]
  cases op.opcode? with
  | none => simp only [Instruction.text, Opcode.unknownText, hclose, String.append_assoc]
  | some opcode =>
      cases opcode <;>
        simp only [Instruction.text, Opcode.withOperand, String.append_assoc,
          String.append_empty]

theorem opcode_eq_of_word_eq (heq : op.word = other.word) : op.opcode = other.opcode :=
  nameOrNumber_inj Opcode.code_of_ofCode? Opcode.mnemonic_inj Opcode.unknownText_inj
    Opcode.mnemonic_ne_unknownText heq

theorem consists_word (op : Op) : Consists nameKind op.word :=
  consists_nameOrNumber Opcode.consists_mnemonic Opcode.consists_unknownText op.opcode

theorem stops_operandText (op : Op) : Stops (· != ' ') op.operandText := by
  rw [operandText]
  split <;> simp [Stops]

theorem consists_operandText (op : Op) : Consists (· != '\n') op.operandText := by
  have hblank : Consists (· != '\n') " " := by simp [Consists]
  rw [operandText]
  split
  · exact hblank.append ((consists_hex _).ne rfl)
  · simp [Consists]
  · exact hblank.append ((consists_repr _).ne rfl)

/-- The text of an op stands on one line. -/
theorem consists_text (op : Op) : Consists (· != '\n') op.text := by
  rw [text_eq]
  exact (op.consists_word.ne rfl).append op.consists_operandText

theorem opcode?_congr (heq : op.opcode = other.opcode) : op.opcode? = other.opcode? := by
  rw [opcode?, opcode?, heq]

/-- The word that a text begins with ends at the first space, or with the text.  It gives the
opcode, which says how to read what stands behind it. -/
theorem listedAlike_of_text_eq (heq : op.text = other.text) : op.ListedAlike other := by
  rw [text_eq, text_eq] at heq
  obtain ⟨hword, hoperand⟩ := eq_of_append_eq (op.consists_word.ne rfl)
    (other.consists_word.ne rfl) op.stops_operandText other.stops_operandText heq
  have hopcode := opcode_eq_of_word_eq hword
  rw [operandText, operandText, ← opcode?_congr hopcode] at hoperand
  refine ⟨hopcode, ?_, ?_⟩
  · intro hpush
    simp only [hpush] at hoperand
    exact hex_injective ((String.append_right_inj _).1 hoperand)
  · intro hpush hhash
    split at hoperand
    · contradiction
    · contradiction
    · exact UInt64.toNat_inj.1 (Nat.repr_injective ((String.append_right_inj _).1 hoperand))

/-- Ops that a listing does not tell apart stand for the same instruction. -/
theorem ListedAlike.instruction_eq (halike : op.ListedAlike other) :
    op.instruction = other.instruction := by
  have hindex := halike.index_eq
  rw [instruction, instruction, ← opcode?_congr halike.opcode_eq, ← halike.opcode_eq]
  cases hop : op.opcode? with
  | none =>
      simp only [hop] at hindex
      simp only [hindex (by decide) (by decide)]
  | some opcode =>
      simp only [hop] at hindex
      cases opcode with
      | pushBytes => simp only [halike.payload_eq hop]
      | hashChildren => rfl
      | pushInput | popHash | peekHash | matchInput => simp only [hindex (by decide) (by decide)]

theorem text_eq_iff : op.text = other.text ↔ op.ListedAlike other := by
  constructor
  · exact listedAlike_of_text_eq
  · intro halike
    exact congrArg Instruction.text halike.instruction_eq

end Op

namespace Metadata

variable {metadata other : Metadata}

/-- How a hash identifier is shown that no function has. -/
def unknownHashText (id : UInt32) : String :=
  "#" ++ id.toNat.repr

theorem hashText_eq (metadata : Metadata) :
    metadata.hashText =
      nameOrNumber HashFunction.ofId? HashFunction.name unknownHashText metadata.hashId := by
  rw [hashText, nameOrNumber]
  cases HashFunction.ofId? metadata.hashId <;> rfl

theorem hashId_eq_of_hashText_eq (heq : metadata.hashText = other.hashText) :
    metadata.hashId = other.hashId := by
  rw [hashText_eq, hashText_eq] at heq
  apply nameOrNumber_inj HashFunction.id_of_ofId? HashFunction.name_inj _ _ heq
  · intro id other hnumber
    exact eq_of_repr_toNat_eq ((String.append_right_inj _).1 hnumber)
  · intro function id hname
    have hfirst := congrArg (fun text => text.toList.head?) hname
    cases function <;> simp [HashFunction.name, unknownHashText] at hfirst

theorem consists_hashText (metadata : Metadata) : Consists nameKind metadata.hashText := by
  rw [hashText_eq]
  apply consists_nameOrNumber HashFunction.consists_name
  intro id
  have hmark : Consists nameKind "#" := by simp [Consists, nameKind]
  exact hmark.append (consists_nameKind_repr _)

/-- What the metadata line shows of the declared length. -/
def lengthText (metadata : Metadata) : String :=
  if metadata.outputLength = 0 then ""
  else " (" ++ (metadata.outputLength.toNat.repr ++ " bytes)")

theorem outputLength_eq_of_lengthText_eq (heq : metadata.lengthText = other.lengthText) :
    metadata.outputLength = other.outputLength := by
  rw [lengthText, lengthText] at heq
  split at heq <;> split at heq
  · case isTrue.isTrue hzero hzero' => rw [hzero, hzero']
  · simp at heq
  · simp at heq
  · rw [String.append_right_inj, String.append_left_inj] at heq
    exact eq_of_repr_toNat_eq heq

/-- Whether a character can stand in what is shown of the declared length. -/
def lengthKind (c : Char) : Bool :=
  c.isAlphanum || [' ', '(', ')'].contains c

theorem consists_lengthText (metadata : Metadata) : Consists lengthKind metadata.lengthText := by
  have hopen : Consists lengthKind " (" := by simp [Consists, lengthKind]
  have hclose : Consists lengthKind " bytes)" := by simp [Consists, lengthKind]
  have hdigit : ∀ c : Char, c.isDigit = true → lengthKind c = true := by
    intro c hc
    simp [lengthKind, Char.isAlphanum, hc]
  rw [lengthText]
  split
  · simp [Consists]
  · exact hopen.append (((consists_repr _).mono hdigit).append hclose)

theorem text_eq (metadata : Metadata) :
    metadata.text = "hash: " ++ (metadata.hashText ++ (metadata.lengthText ++
      (", inputs: " ++ (metadata.inputCount.toNat.repr ++
        (", branching factor: " ++ metadata.branchingFactor.toNat.repr))))) := by
  simp only [text, lengthText, String.append_assoc]

/-- The metadata are shown on one line. -/
theorem consists_text (metadata : Metadata) : Consists (· != '\n') metadata.text := by
  have hhash : Consists (· != '\n') "hash: " := by simp [Consists]
  have hinputs : Consists (· != '\n') ", inputs: " := by simp [Consists]
  have hfactor : Consists (· != '\n') ", branching factor: " := by simp [Consists]
  have hnumber : ∀ n : Nat, Consists (· != '\n') n.repr := fun n => (consists_repr n).ne rfl
  rw [text_eq]
  exact hhash.append ((metadata.consists_hashText.ne rfl).append
    ((metadata.consists_lengthText.ne rfl).append
      (hinputs.append ((hnumber _).append (hfactor.append (hnumber _))))))

theorem stops_lengthText_append (metadata : Metadata) (rest : String) :
    Stops nameKind (metadata.lengthText ++ (", inputs: " ++ rest)) := by
  rw [lengthText]
  split <;> simp [Stops, nameKind]

theorem text_injective (heq : metadata.text = other.text) : metadata = other := by
  rw [text_eq, text_eq, String.append_right_inj] at heq
  obtain ⟨hhash, heq⟩ := eq_of_append_eq metadata.consists_hashText other.consists_hashText
    (metadata.stops_lengthText_append _) (other.stops_lengthText_append _) heq
  obtain ⟨hlength, heq⟩ := eq_of_append_eq metadata.consists_lengthText
    other.consists_lengthText (by simp [Stops, lengthKind]) (by simp [Stops, lengthKind]) heq
  rw [String.append_right_inj] at heq
  obtain ⟨hinputs, heq⟩ := repr_append_inj (by simp [Stops]) (by simp [Stops]) heq
  rw [String.append_right_inj] at heq
  rcases metadata with ⟨hashId, outputLength, inputCount, branchingFactor⟩
  rcases other with ⟨hashId', outputLength', inputCount', branchingFactor'⟩
  obtain rfl : hashId = hashId' := hashId_eq_of_hashText_eq hhash
  obtain rfl : outputLength = outputLength' := outputLength_eq_of_lengthText_eq hlength
  obtain rfl : inputCount = inputCount' := UInt32.toNat_inj.1 hinputs
  obtain rfl : branchingFactor = branchingFactor' := eq_of_repr_toNat_eq heq
  rfl

end Metadata

/-- Lines of some ops, the first of them at a position. -/
def opLines (position : Nat) : List Op → String
  | [] => ""
  | op :: rest => op.line position ++ opLines (position + 1) rest

theorem foldl_line (start : String) (position : Nat) (ops : List Op) :
    ((ops.zipIdx position).map fun (op, position) => op.line position).foldl (· ++ ·) start =
      start ++ opLines position ops := by
  induction ops generalizing start position with
  | nil => simp [opLines]
  | cons op rest ih =>
      rw [List.zipIdx_cons, List.map_cons, List.foldl_cons, ih, opLines, String.append_assoc]

theorem Program.listing_eq (program : Program) :
    program.listing = program.metadata.text ++ ("\n" ++ opLines 0 program.ops) := by
  rw [listing, foldl_line, String.append_assoc]

/-- A text on one line and what follows that line. -/
theorem line_append_inj {text other rest others : String}
    (htext : Consists (· != '\n') text) (hother : Consists (· != '\n') other)
    (heq : text ++ ("\n" ++ rest) = other ++ ("\n" ++ others)) :
    text = other ∧ rest = others := by
  obtain ⟨hline, hrest⟩ :=
    eq_of_append_eq htext hother (by simp [Stops]) (by simp [Stops]) heq
  exact ⟨hline, (String.append_right_inj _).1 hrest⟩

theorem line_ne_empty (op : Op) (position : Nat) (rest : String) :
    op.line position ++ rest ≠ "" := by
  rw [Op.line]
  simp

theorem listedAlike_of_opLines_eq {position : Nat} {ops others : List Op}
    (heq : opLines position ops = opLines position others) :
    List.Forall₂ Op.ListedAlike ops others := by
  induction ops generalizing position others with
  | nil =>
      cases others with
      | nil => exact List.Forall₂.nil
      | cons other others => exact absurd heq.symm (line_ne_empty other position _)
  | cons op ops ih =>
      cases others with
      | nil => exact absurd heq (line_ne_empty op position _)
      | cons other others =>
          simp only [opLines, Op.line, String.append_assoc, String.append_right_inj] at heq
          obtain ⟨htext, hrest⟩ := line_append_inj op.consists_text other.consists_text heq
          exact List.Forall₂.cons (Op.listedAlike_of_text_eq htext) (ih hrest)

theorem opLines_eq_of_listedAlike {position : Nat} {ops others : List Op}
    (halike : List.Forall₂ Op.ListedAlike ops others) :
    opLines position ops = opLines position others := by
  induction halike generalizing position with
  | nil => rfl
  | cons hop _ ih => rw [opLines, opLines, Op.line, Op.line, Op.text_eq_iff.2 hop, ih]

theorem Setting.evalOps_listedAlike (setting : Setting) {ops others : List Op}
    (halike : List.Forall₂ Op.ListedAlike ops others) (stack : List Bytes) :
    setting.evalOps stack ops = setting.evalOps stack others := by
  induction halike generalizing stack with
  | nil => rfl
  | cons hop _ ih =>
      simp only [evalOps, List.foldlM_cons, evalOp_eq, hop.instruction_eq] at ih ⊢
      simp only [ih]

/-- Programs that differ in nothing that a listing shows are verified alike. -/
theorem verify_of_listedAlike {metadata : Metadata} {ops others : List Op}
    (halike : List.Forall₂ Op.ListedAlike ops others) (inputs : List Bytes) (expected : Bytes) :
    verify ⟨metadata, ops⟩ inputs expected = verify ⟨metadata, others⟩ inputs expected := by
  cases hsetting : (⟨metadata, ops⟩ : Program).setting inputs with
  | error cause =>
      have hother : (⟨metadata, others⟩ : Program).setting inputs = .error cause := hsetting
      rw [verify_of_setting_error hsetting, verify_of_setting_error hother]
  | ok setting => exact verify_congr hsetting (setting.evalOps_listedAlike halike []) expected

/-- A listing is faithful.  Two programs have the same listing exactly if they have the same
metadata and as many ops, with the same opcodes, payloads where bytes are pushed, and
operands wherever there is one.  What is hidden has no part in a run. -/
theorem Program.listing_faithful (first second : Program) :
    (first.listing = second.listing ↔
      first.metadata = second.metadata ∧ List.Forall₂ Op.ListedAlike first.ops second.ops) ∧
    (first.listing = second.listing →
      ∀ inputs expected, verify first inputs expected = verify second inputs expected) := by
  have htold : first.listing = second.listing ↔
      first.metadata = second.metadata ∧ List.Forall₂ Op.ListedAlike first.ops second.ops := by
    rw [listing_eq, listing_eq]
    constructor
    · intro heq
      obtain ⟨hmetadata, hops⟩ :=
        line_append_inj first.metadata.consists_text second.metadata.consists_text heq
      exact ⟨Metadata.text_injective hmetadata, listedAlike_of_opLines_eq hops⟩
    · rintro ⟨hmetadata, halike⟩
      rw [hmetadata, opLines_eq_of_listedAlike halike]
  refine ⟨htold, ?_⟩
  intro heq inputs expected
  obtain ⟨hmetadata, halike⟩ := htold.1 heq
  rcases first with ⟨metadata, ops⟩
  rcases second with ⟨other, others⟩
  obtain rfl : metadata = other := hmetadata
  exact verify_of_listedAlike halike inputs expected

/-- Programs with other operands and payloads where these are not used. -/
theorem Program.listing_faithful_unused :
    let first : Program := ⟨Metadata.ofFunction .sha256 0 2,
      [⟨Opcode.pushBytes.code, 5, [171]⟩, Op.pushBytes [], ⟨Opcode.hashChildren.code, 7, [1]⟩]⟩
    let second : Program := ⟨Metadata.ofFunction .sha256 0 2,
      [Op.pushBytes [171], Op.pushBytes [], Op.hashChildren]⟩
    first ≠ second ∧ first.listing = second.listing ∧
      List.Forall₂ Op.ListedAlike first.ops second.ops ∧
      verify first [] [] = verify second [] [] := by
  intro first second
  have hlisting : first.listing = second.listing := by decide +kernel
  obtain ⟨htold, hverify⟩ := Program.listing_faithful first second
  exact ⟨by decide, hlisting, (htold.1 hlisting).2, hverify hlisting [] []⟩

end MerkleStack
