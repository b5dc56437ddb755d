/-
What a program says before its inputs and its hash function are known.  Its ops are
carried out on hash terms in place of values, and a comparison asks for an equation between
a term and an input.  Terms decide whether an op can be carried out at all, so a program
that was verified once denotes a term and equations, and these tell what any other
verification of it gives.
-/
import MerkleStack.Proofs.TermCompilation

namespace MerkleStack

/-- A term that has to have the value of an input. -/
structure Equation where
  term : HashTerm
  index : UInt64

/-- What a program says: the term that it outputs, and the equations that its comparisons
ask for, in their order. -/
structure Meaning where
  output : HashTerm
  equations : List Equation

namespace Equation

def Holds (digest : Bytes → Bytes) (inputs : List Bytes) (equation : Equation) : Prop :=
  inputs[equation.index.toNat]? = some (equation.term.value digest inputs)

/-- Whether the inputs that an equation names are declared. -/
def Scoped (inputCount : UInt32) (equation : Equation) : Prop :=
  equation.term.Scoped inputCount ∧ equation.index.toNat < inputCount.toNat

end Equation

namespace Instruction

/-- The input that an instruction compares a value with, if it compares. -/
def compared? : Instruction → Option UInt64
  | matchInput index => some index
  | _ => none

/-- The terms after an instruction and the equations that it asks for, unless it fails
whatever the values of the terms are. -/
def denote (inputCount branchingFactor : UInt32) (terms : List HashTerm)
    (instruction : Instruction) : Option (List HashTerm × List Equation) :=
  match instruction.arity? branchingFactor with
  | some count =>
      if terms.length < count then none
      else some (.node (terms.take count) :: instruction.kept count terms, [])
  | none =>
      match instruction, terms with
      | pushInput index, _ =>
          if index.toNat < inputCount.toNat then some (.input index :: terms, []) else none
      | pushBytes payload, _ => some (.literal payload :: terms, [])
      | matchInput index, term :: rest =>
          if index.toNat < inputCount.toNat then some (rest, [⟨term, index⟩]) else none
      | _, _ => none

variable {inputCount branchingFactor : UInt32} {terms after : List HashTerm}
  {equations : List Equation} {instruction : Instruction}

/-- All that an instruction can do to terms. -/
theorem denote_cases
    (hdenote : instruction.denote inputCount branchingFactor terms = some (after, equations)) :
    (∃ count, instruction.arity? branchingFactor = some count ∧ count ≤ terms.length ∧
      after = .node (terms.take count) :: instruction.kept count terms ∧ equations = []) ∨
    (∃ index, instruction = .pushInput index ∧ index.toNat < inputCount.toNat ∧
      after = .input index :: terms ∧ equations = []) ∨
    (∃ payload, instruction = .pushBytes payload ∧
      after = .literal payload :: terms ∧ equations = []) ∨
    ∃ index term, instruction = .matchInput index ∧ index.toNat < inputCount.toNat ∧
      terms = term :: after ∧ equations = [⟨term, index⟩] := by
  unfold denote at hdenote
  split at hdenote
  · rename_i count harity
    split_ifs at hdenote with hdepth
    cases hdenote
    exact Or.inl ⟨count, harity, Nat.le_of_not_lt hdepth, rfl, rfl⟩
  · split at hdenote
    · rename_i index _
      split_ifs at hdenote with hindex
      cases hdenote
      exact Or.inr (Or.inl ⟨index, rfl, hindex, rfl, rfl⟩)
    · rename_i payload _
      cases hdenote
      exact Or.inr (Or.inr (Or.inl ⟨payload, rfl, rfl, rfl⟩))
    · rename_i index term rest _
      split_ifs at hdenote with hindex
      cases hdenote
      exact Or.inr (Or.inr (Or.inr ⟨index, term, rfl, hindex, rfl, rfl⟩))
    · cases hdenote

theorem compared?_of_arity? {count : Nat}
    (harity : instruction.arity? branchingFactor = some count) :
    instruction.compared? = none := by
  cases instruction with
  | matchInput index => cases harity
  | _ => rfl

/-- An instruction asks for an equation exactly if it compares. -/
theorem denote_compared
    (hdenote : instruction.denote inputCount branchingFactor terms = some (after, equations)) :
    equations.map Equation.index = instruction.compared?.toList := by
  rcases denote_cases hdenote with ⟨count, harity, _, _, rfl⟩ | ⟨index, rfl, _, _, rfl⟩ |
    ⟨payload, rfl, _, rfl⟩ | ⟨index, term, rfl, _, _, rfl⟩
  · rw [compared?_of_arity? harity]
    rfl
  · rfl
  · rfl
  · rfl

end Instruction

theorem HashTerm.scopedAll_iff {inputCount : UInt32} {terms : List HashTerm} :
    ScopedAll inputCount terms ↔ ∀ term ∈ terms, term.Scoped inputCount := by
  induction terms with
  | nil => simp [ScopedAll]
  | cons term rest ih => simp [ScopedAll, ih]

/-- Terms and equations name declared inputs only. -/
theorem Instruction.denote_scoped {inputCount branchingFactor : UInt32}
    {terms after : List HashTerm} {equations : List Equation} {instruction : Instruction}
    (hdenote : instruction.denote inputCount branchingFactor terms = some (after, equations))
    (hterms : ∀ term ∈ terms, term.Scoped inputCount) :
    (∀ term ∈ after, term.Scoped inputCount) ∧
      ∀ equation ∈ equations, equation.Scoped inputCount := by
  rcases denote_cases hdenote with ⟨count, _, _, rfl, rfl⟩ | ⟨index, rfl, hindex, rfl, rfl⟩ |
    ⟨payload, rfl, rfl, rfl⟩ | ⟨index, term, rfl, hindex, rfl, rfl⟩
  · have hnode : (HashTerm.node (terms.take count)).Scoped inputCount := by
      rw [HashTerm.Scoped, HashTerm.scopedAll_iff]
      intro term hterm
      exact hterms term (List.mem_of_mem_take hterm)
    have hkept : ∀ term ∈ instruction.kept count terms, term.Scoped inputCount := by
      intro term hterm
      exact hterms term (mem_of_mem_kept hterm)
    simpa using ⟨hnode, hkept⟩
  · simpa [HashTerm.Scoped] using ⟨hindex, hterms⟩
  · simpa [HashTerm.Scoped] using hterms
  · rw [List.forall_mem_cons] at hterms
    simpa [Equation.Scoped] using ⟨hterms.2, hterms.1, hindex⟩

/-- The terms that some ops leave and the equations that they ask for. -/
def denoteOps (inputCount branchingFactor : UInt32) :
    List HashTerm → List Op → Option (List HashTerm × List Equation)
  | terms, [] => some (terms, [])
  | terms, op :: rest => do
      let (next, first) ← op.instruction.denote inputCount branchingFactor terms
      let (after, others) ← denoteOps inputCount branchingFactor next rest
      return (after, first ++ others)

/-- What some ops say, if they leave a single term. -/
def meaning? (inputCount branchingFactor : UInt32) (ops : List Op) : Option Meaning :=
  match denoteOps inputCount branchingFactor [] ops with
  | some ([output], equations) => some ⟨output, equations⟩
  | _ => none

section

variable {inputCount branchingFactor : UInt32} {terms after : List HashTerm}
  {equations : List Equation} {ops : List Op}

theorem denoteOps_cons_eq_some {op : Op} :
    denoteOps inputCount branchingFactor terms (op :: ops) = some (after, equations) ↔
      ∃ next first others,
        op.instruction.denote inputCount branchingFactor terms = some (next, first) ∧
        denoteOps inputCount branchingFactor next ops = some (after, others) ∧
        equations = first ++ others := by
  simp only [denoteOps, Option.bind_eq_bind, Option.bind_eq_some_iff, Prod.exists,
    Option.pure_def, Option.some.injEq, Prod.mk.injEq]
  constructor
  · rintro ⟨next, first, hop, last, others, hrest, rfl, rfl⟩
    exact ⟨next, first, others, hop, hrest, rfl⟩
  · rintro ⟨next, first, others, hop, hrest, rfl⟩
    exact ⟨next, first, hop, after, others, hrest, rfl, rfl⟩

theorem meaning?_eq_some {meaning : Meaning} :
    meaning? inputCount branchingFactor ops = some meaning ↔
      denoteOps inputCount branchingFactor [] ops =
        some ([meaning.output], meaning.equations) := by
  rcases meaning with ⟨output, equations⟩
  unfold meaning?
  split
  · rename_i found others hdenote
    rw [hdenote]
    simp
  · rename_i hnone
    constructor
    · intro hfalse
      cases hfalse
    · intro hdenote
      exact absurd hdenote (hnone output equations)

/-- There is one equation for every comparison, in the order of the ops. -/
theorem denoteOps_compared
    (hdenote : denoteOps inputCount branchingFactor terms ops = some (after, equations)) :
    equations.map Equation.index = ops.filterMap fun op => op.instruction.compared? := by
  induction ops generalizing terms equations with
  | nil =>
      cases hdenote
      rfl
  | cons op rest ih =>
      obtain ⟨next, first, others, hop, hrest, rfl⟩ := denoteOps_cons_eq_some.1 hdenote
      rw [List.map_append, Instruction.denote_compared hop, ih hrest, List.filterMap_cons]
      cases op.instruction.compared? <;> rfl

theorem denoteOps_scoped
    (hdenote : denoteOps inputCount branchingFactor terms ops = some (after, equations))
    (hterms : ∀ term ∈ terms, term.Scoped inputCount) :
    (∀ term ∈ after, term.Scoped inputCount) ∧
      ∀ equation ∈ equations, equation.Scoped inputCount := by
  induction ops generalizing terms equations with
  | nil =>
      cases hdenote
      simpa using hterms
  | cons op rest ih =>
      obtain ⟨next, first, others, hop, hrest, rfl⟩ := denoteOps_cons_eq_some.1 hdenote
      obtain ⟨hnext, hfirst⟩ := Instruction.denote_scoped hop hterms
      obtain ⟨hafter, hothers⟩ := ih hrest hnext
      refine ⟨hafter, ?_⟩
      intro equation hequation
      rcases List.mem_append.1 hequation with hequation | hequation
      · exact hfirst equation hequation
      · exact hothers equation hequation

end

namespace Setting

variable {setting : Setting} {terms after : List HashTerm} {equations : List Equation}

def values (setting : Setting) (terms : List HashTerm) : List Bytes :=
  terms.map (HashTerm.value setting.digest setting.inputs)

def check (setting : Setting) (equation : Equation) : Except Error Unit := do
  let value := equation.term.value setting.digest setting.inputs
  let expected ← setting.input equation.index
  if value = expected then return ()
  else throw (.valueMismatch equation.index value expected)

/-- Check equations up to the first one that does not hold. -/
def checkAll (setting : Setting) : List Equation → Except Error Unit
  | [] => .ok ()
  | equation :: rest => (setting.check equation).bind fun _ => setting.checkAll rest

theorem checkAll_append (first second : List Equation) :
    setting.checkAll (first ++ second) =
      (setting.checkAll first).bind fun _ => setting.checkAll second := by
  induction first with
  | nil => rfl
  | cons equation rest ih =>
      simp only [List.cons_append, checkAll, ih]
      cases setting.check equation <;> rfl

theorem check_of_input {equation : Equation} {expected : Bytes}
    (hinput : setting.input equation.index = .ok expected) :
    setting.check equation =
      if equation.term.value setting.digest setting.inputs = expected then .ok ()
      else .error (.valueMismatch equation.index
        (equation.term.value setting.digest setting.inputs) expected) := by
  rw [check, hinput]
  rfl

theorem check_of_holds {equation : Equation}
    (hholds : equation.Holds setting.digest setting.inputs) :
    setting.check equation = .ok () := by
  rw [check_of_input (input_eq_ok.2 hholds)]
  exact if_pos rfl

theorem check_of_not_holds (hsupplied : setting.Supplied) {equation : Equation}
    (hscoped : equation.Scoped setting.inputCount)
    (hholds : ¬ equation.Holds setting.digest setting.inputs) :
    ∃ expected, setting.inputs[equation.index.toNat]? = some expected ∧
      setting.check equation = .error (.valueMismatch equation.index
        (equation.term.value setting.digest setting.inputs) expected) := by
  have hindex : equation.index.toNat < setting.inputs.length :=
    Nat.lt_of_lt_of_eq hscoped.2 hsupplied
  have hinput := List.getElem?_eq_getElem hindex
  refine ⟨_, hinput, ?_⟩
  rw [Equation.Holds, hinput, Option.some.injEq] at hholds
  rw [check_of_input (input_eq_ok.2 hinput)]
  exact if_neg (Ne.symm hholds)

theorem checkAll_of_holds
    (hholds : ∀ equation ∈ equations, equation.Holds setting.digest setting.inputs) :
    setting.checkAll equations = .ok () := by
  induction equations with
  | nil => rfl
  | cons equation rest ih =>
      rw [List.forall_mem_cons] at hholds
      rw [checkAll, check_of_holds hholds.1]
      exact ih hholds.2

/-- The first equation that does not hold is reported, with the value of its term and the
input. -/
theorem checkAll_of_not_holds (hsupplied : setting.Supplied) {before : List Equation}
    {equation : Equation}
    (hbefore : ∀ earlier ∈ before, earlier.Holds setting.digest setting.inputs)
    (hscoped : equation.Scoped setting.inputCount)
    (hholds : ¬ equation.Holds setting.digest setting.inputs) (rest : List Equation) :
    ∃ expected, setting.inputs[equation.index.toNat]? = some expected ∧
      setting.checkAll (before ++ equation :: rest) =
        .error (.valueMismatch equation.index
          (equation.term.value setting.digest setting.inputs) expected) := by
  obtain ⟨expected, hexpected, hcheck⟩ := check_of_not_holds hsupplied hscoped hholds
  refine ⟨expected, hexpected, ?_⟩
  rw [checkAll_append, checkAll_of_holds hbefore, Except.bind, checkAll, hcheck, Except.bind]

/-- What an instruction does to the values of terms, where it can be carried out: the
equations that it asks for are checked, and the terms that it leaves are valued. -/
theorem eval_of_denote (hsupplied : setting.Supplied) {instruction : Instruction}
    (hdenote : instruction.denote setting.inputCount setting.branchingFactor terms =
      some (after, equations)) :
    setting.eval (setting.values terms) instruction =
      (setting.checkAll equations).map fun _ => setting.values after := by
  rcases Instruction.denote_cases hdenote with ⟨count, harity, hdepth, rfl, rfl⟩ |
    ⟨index, rfl, hindex, rfl, rfl⟩ | ⟨payload, rfl, rfl, rfl⟩ |
    ⟨index, term, rfl, hindex, rfl, rfl⟩
  · have hlong : count ≤ (setting.values terms).length := by
      rw [values, List.length_map]
      exact hdepth
    rw [eval_of_le_length harity hlong]
    simp only [values, List.map_cons, HashTerm.value, HashTerm.joined_eq_flatten,
      List.map_take, Instruction.kept_map]
    rfl
  · rw [eval_pushInput, input_of_lt hsupplied hindex]
    simp only [values, List.map_cons, HashTerm.value]
    rfl
  · simp only [values, List.map_cons, HashTerm.value]
    rfl
  · have hinput := input_of_lt hsupplied hindex
    rw [values, List.map_cons, eval_matchInput_cons hinput, checkAll, check_of_input hinput]
    split_ifs <;> rfl

theorem values_of_eval (hsupplied : setting.Supplied) {instruction : Instruction}
    {stack : List Bytes}
    (hdenote : instruction.denote setting.inputCount setting.branchingFactor terms =
      some (after, equations))
    (heval : setting.eval (setting.values terms) instruction = .ok stack) :
    stack = setting.values after := by
  rw [eval_of_denote hsupplied hdenote] at heval
  cases hcheck : setting.checkAll equations with
  | error cause =>
      rw [hcheck] at heval
      cases heval
  | ok _ =>
      rw [hcheck] at heval
      cases heval
      rfl

/-- An instruction that was carried out on some values of terms can be carried out on the
terms. -/
theorem denote_of_eval (hsupplied : setting.Supplied) {instruction : Instruction}
    {stack : List Bytes}
    (heval : setting.eval (setting.values terms) instruction = .ok stack) :
    ∃ after equations,
      instruction.denote setting.inputCount setting.branchingFactor terms =
        some (after, equations) := by
  have hdeclared : ∀ {index : UInt64} {value : Bytes},
      setting.inputs[index.toNat]? = some value → index.toNat < setting.inputCount.toNat := by
    intro index value hvalue
    rw [hsupplied]
    exact (List.getElem?_eq_some_iff.1 hvalue).1
  rcases eval_eq_ok.1 heval with ⟨count, harity, hcount, _⟩ |
    ⟨index, value, rfl, hvalue, _⟩ | ⟨payload, rfl, _⟩ | ⟨index, value, rfl, hvalue, hstack⟩
  · rw [values, List.length_map] at hcount
    simp [Instruction.denote, harity, hcount]
  · simp [Instruction.denote, Instruction.arity?, hdeclared hvalue]
  · exact ⟨_, _, rfl⟩
  · obtain ⟨term, rest, rfl, _, _⟩ := List.map_eq_cons_iff.1 hstack
    simp [Instruction.denote, Instruction.arity?, hdeclared hvalue]

/-- Ops on the values of terms check their equations and leave the values of their
terms. -/
theorem evalOps_of_denote (hsupplied : setting.Supplied) {ops : List Op}
    (hdenote : denoteOps setting.inputCount setting.branchingFactor terms ops =
      some (after, equations)) :
    setting.evalOps (setting.values terms) ops =
      (setting.checkAll equations).map fun _ => setting.values after := by
  induction ops generalizing terms equations with
  | nil =>
      cases hdenote
      rfl
  | cons op rest ih =>
      obtain ⟨next, first, others, hop, hrest, rfl⟩ := denoteOps_cons_eq_some.1 hdenote
      have heval := eval_of_denote hsupplied hop
      rw [checkAll_append]
      cases hcheck : setting.checkAll first with
      | error cause =>
          rw [hcheck] at heval
          exact evalOps_cons_of_error heval rest
      | ok _ =>
          rw [hcheck] at heval
          rw [evalOps_cons_of_ok heval]
          exact ih hrest

theorem denoteOps_of_evalOps (hsupplied : setting.Supplied) {ops : List Op}
    {stack : List Bytes} (heval : setting.evalOps (setting.values terms) ops = .ok stack) :
    ∃ after equations,
      denoteOps setting.inputCount setting.branchingFactor terms ops =
        some (after, equations) ∧ stack = setting.values after := by
  induction ops generalizing terms with
  | nil =>
      cases heval
      exact ⟨terms, [], rfl, rfl⟩
  | cons op rest ih =>
      obtain ⟨next, hop, hrest⟩ := evalOps_cons_eq_ok.1 heval
      obtain ⟨middle, first, hdenote⟩ := denote_of_eval hsupplied hop
      rw [values_of_eval hsupplied hdenote hop] at hrest
      obtain ⟨after, others, hothers, hstack⟩ := ih hrest
      exact ⟨after, first ++ others,
        denoteOps_cons_eq_some.2 ⟨middle, first, others, hdenote, hothers, rfl⟩, hstack⟩

theorem meaning?_of_evalOps (hsupplied : setting.Supplied) {ops : List Op} {value : Bytes}
    (heval : setting.evalOps [] ops = .ok [value]) :
    ∃ meaning, meaning? setting.inputCount setting.branchingFactor ops = some meaning := by
  have hvalues : setting.evalOps (setting.values []) ops = .ok [value] := heval
  obtain ⟨terms, equations, hdenote, hterms⟩ := denoteOps_of_evalOps hsupplied hvalues
  have hlength : terms.length = 1 := by
    simpa [values] using (congrArg List.length hterms).symm
  obtain ⟨output, rfl⟩ := List.length_eq_one_iff.1 hlength
  exact ⟨⟨output, equations⟩, meaning?_eq_some.2 hdenote⟩

end Setting

/-- A verdict can only be given on a program that means something. -/
theorem meaning?_of_verify {program : Program} {inputs : List Bytes} {expected : Bytes}
    {verdict : Verdict} (hverify : verify program inputs expected = .ok verdict) :
    ∃ meaning,
      meaning? program.metadata.inputCount program.metadata.branchingFactor program.ops =
        some meaning := by
  obtain ⟨function, size, hcount, _, _, _, heval⟩ := evalOps_of_verify hverify
  have hsupplied : (Machine.initial program inputs function size).setting.Supplied := hcount
  exact Setting.meaning?_of_evalOps hsupplied heval

/-- A program is verified by checking its equations and comparing the value of its term. -/
theorem verify_of_meaning {program : Program} {inputs : List Bytes} {setting : Setting}
    {meaning : Meaning} (hsetting : program.setting inputs = .ok setting)
    (hsupplied : setting.Supplied)
    (hmeaning : meaning? setting.inputCount setting.branchingFactor program.ops =
      some meaning) (expected : Bytes) :
    verify program inputs expected =
      (setting.checkAll meaning.equations).map fun _ =>
        Verdict.of (meaning.output.value setting.digest setting.inputs) expected := by
  have heval := Setting.evalOps_of_denote hsupplied (meaning?_eq_some.1 hmeaning)
  rw [Setting.values, List.map_nil] at heval
  rw [verify_of_setting hsetting, heval]
  cases setting.checkAll meaning.equations <;> rfl

/-- Every program that was verified denotes a term and equations, which its ops, its
branching factor and its number of inputs determine.  There is one equation for each
comparison, in the order of the ops.  Under any hash that metadata may select and on any
inputs of that number, the program outputs the value of the term if all equations hold, and
otherwise the first equation that does not hold is what it fails with. -/
theorem exists_meaning {program : Program} {inputs : List Bytes} {expected : Bytes}
    {verdict : Verdict} (hverify : verify program inputs expected = .ok verdict) :
    ∃ meaning : Meaning,
      meaning? program.metadata.inputCount program.metadata.branchingFactor program.ops =
          some meaning ∧
      meaning.equations.map Equation.index =
          program.ops.filterMap (fun op => op.instruction.compared?) ∧
      meaning.output.Scoped program.metadata.inputCount ∧
      (∀ equation ∈ meaning.equations, equation.Scoped program.metadata.inputCount) ∧
      ∀ (metadata : Metadata) (others : List Bytes) (function : HashFunction) (size : Nat)
        (wanted : Bytes),
        metadata.inputCount = program.metadata.inputCount →
        metadata.branchingFactor = program.metadata.branchingFactor →
        metadata.inputCount.toNat = others.length →
        metadata.function = .ok function →
        function.resolveSize metadata.outputLength = .ok size →
        ((∀ equation ∈ meaning.equations, equation.Holds (function.digest size) others) →
          verify ⟨metadata, program.ops⟩ others wanted =
            .ok ⟨meaning.output.value (function.digest size) others == wanted,
              meaning.output.value (function.digest size) others⟩) ∧
        ∀ before equation rest, meaning.equations = before ++ equation :: rest →
          (∀ earlier ∈ before, earlier.Holds (function.digest size) others) →
          ¬ equation.Holds (function.digest size) others →
          ∃ input, others[equation.index.toNat]? = some input ∧
            verify ⟨metadata, program.ops⟩ others wanted =
              .error (.valueMismatch equation.index
                (equation.term.value (function.digest size) others) input) := by
  obtain ⟨meaning, hmeaning⟩ := meaning?_of_verify hverify
  have hdenote := meaning?_eq_some.1 hmeaning
  obtain ⟨houtput, hequations⟩ := denoteOps_scoped hdenote (by simp)
  refine ⟨meaning, hmeaning, denoteOps_compared hdenote,
    houtput meaning.output List.mem_cons_self, hequations, ?_⟩
  intro metadata others function size wanted hinputs hfactor hcount hfunction hsize
  let setting : Setting :=
    ⟨function.digest size, metadata.branchingFactor, metadata.inputCount, others⟩
  have hsetting : (⟨metadata, program.ops⟩ : Program).setting others = .ok setting :=
    Program.setting_eq_ok hcount hfunction hsize
  have hsupplied : setting.Supplied := hcount
  rw [← hinputs, ← hfactor] at hmeaning
  rw [← hinputs] at hequations
  rw [verify_of_meaning hsetting hsupplied hmeaning]
  constructor
  · intro hholds
    rw [Setting.checkAll_of_holds hholds]
    rfl
  · intro before equation rest hsplit hbefore hholds
    have hscoped : equation.Scoped setting.inputCount :=
      hequations equation (by simp [hsplit])
    obtain ⟨input, hinput, hcheck⟩ :=
      Setting.checkAll_of_not_holds hsupplied hbefore hscoped hholds rest
    refine ⟨input, hinput, ?_⟩
    rw [hsplit, hcheck]
    rfl

/-- An input whose digest has to be another input, and the digest of both. -/
def sealedPreimage (metadata : Metadata) : Program :=
  ⟨metadata, [Op.pushInput 0, Op.peekHash 1, Op.matchInput 1, Op.peekHash 1, Op.popHash 2]⟩

/-- A verdict under one hash tells how verification fails under another one. -/
theorem verify_sealedPreimage :
    let verified := sealedPreimage ((Metadata.ofFunction .blake3Xof 2 0).declaring 1)
    let other := sealedPreimage (Metadata.ofFunction .sha256 2 0)
    verify verified [[97], [23]] [242] = .ok ⟨true, [242]⟩ ∧
      meaning? 2 0 verified.ops =
        some ⟨.node [.node [.input 0], .input 0], [⟨.node [.input 0], 1⟩]⟩ ∧
      verify other [[97], [23]] [] =
        .error (.valueMismatch 1 (HashFunction.sha256.digest 32 [97]) [23]) := by
  intro verified other
  have hverify : verify verified [[97], [23]] [242] = .ok ⟨true, [242]⟩ := by
    decide +kernel
  have hmeaning : meaning? 2 0 verified.ops =
      some ⟨.node [.node [.input 0], .input 0], [⟨.node [.input 0], 1⟩]⟩ := rfl
  obtain ⟨meaning, hfound, _, _, _, hruns⟩ := exists_meaning hverify
  obtain rfl := Option.some.inj (hmeaning.symm.trans hfound)
  have hvalue : (HashTerm.node [.input 0]).value (HashFunction.sha256.digest 32) [[97], [23]] =
      HashFunction.sha256.digest 32 [97] := by
    simp [HashTerm.value, HashTerm.joined]
  have hlength := HashFunction.length_digest .sha256 32 [97]
  have hfails : ¬ (⟨.node [.input 0], 1⟩ : Equation).Holds (HashFunction.sha256.digest 32)
      [[97], [23]] := by
    intro hholds
    have hequal : [23] = HashFunction.sha256.digest 32 [97] := by
      simpa [Equation.Holds, hvalue] using hholds
    rw [← hequal] at hlength
    exact absurd hlength (by decide)
  obtain ⟨input, hinput, hresult⟩ :=
    (hruns (Metadata.ofFunction .sha256 2 0) [[97], [23]] .sha256 32 [] rfl rfl rfl rfl rfl).2
      [] _ [] rfl (by simp) hfails
  cases hinput
  rw [hvalue] at hresult
  exact ⟨hverify, hmeaning, hresult⟩

end MerkleStack
