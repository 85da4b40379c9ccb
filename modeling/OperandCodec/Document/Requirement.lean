import OperandCodec.Document.Normal
import OperandCodec.Error
/-!
# What a document has to satisfy

The requirements on the parts of a document, in the order in which they are
looked at: of each argument in turn its bits, the entries of its valid range
and its computation, then the inputs, then the outputs. `Requirement.Met`
says what is asked for, and `Requirement.Refuses` which error says that it
is missing. What the record as a whole has to satisfy comes behind them all
and is not among them.
-/

namespace OperandCodec

/-- Something that a part of a document has to satisfy. -/
inductive Requirement where
  /-- A written pair is a range of positions of the word. -/
  | bits (owner : String) (pair : Nat × Nat)
  /-- A written entry of a valid range has one or two bounds, and they fit a word. -/
  | entry (argument : String) (bounds : List Nat)
  /-- A written computation, unless it is one of blanks, is an expression over the variable. -/
  | computation (subject : Subject) (source : Option String) (v : Variable)
  /-- Inputs without bits have no computation, unless it is one of blanks. -/
  | noComputation (source : Option String)
  /-- Outputs that are no count have bits. -/
  | outputBits (pair : Option (Nat × Nat))

namespace Requirement

/-- What is asked for. -/
def Met : Requirement → Prop
  | bits _ (start, stop) => start ≤ stop ∧ stop ≤ 15
  | entry _ bounds => (bounds.length = 1 ∨ bounds.length = 2) ∧ ∀ n ∈ bounds, n ≤ 65535
  | computation _ source v => ∀ s ∈ written? source, ∃ e, Expr.ofSource s v = .ok e
  | noComputation source => written? source = none
  | outputBits pair => pair.isSome

/-- The error that says what is missing. -/
inductive Refuses (opcode : String) : Requirement → Error → Prop where
  | startAfterEnd {owner : String} {start stop : Nat} : stop < start →
      Refuses opcode (bits owner (start, stop))
        (.invalidMetadata opcode (.bits owner (.startAfterEnd start stop)))
  | beyondWord {owner : String} {start stop : Nat} : start ≤ stop → 15 < stop →
      Refuses opcode (bits owner (start, stop))
        (.invalidMetadata opcode (.bits owner (.beyondWord start stop)))
  | entryLength {argument : String} {bounds : List Nat} : bounds.length ≠ 1 → bounds.length ≠ 2 →
      Refuses opcode (entry argument bounds)
        (.invalidMetadata opcode (.entryLength argument bounds.length))
  /-- The first bound that does not fit is named. -/
  | boundTooLarge {argument : String} {bounds : List Nat} {n : Nat} :
      bounds.length = 1 ∨ bounds.length = 2 → bounds.find? (65535 < ·) = some n →
      Refuses opcode (entry argument bounds)
        (.invalidMetadata opcode (.boundTooLarge argument n))
  | noTree {subject : Subject} {source : Option String} {v : Variable} {s : String}
      {cause : ParseError} : written? source = some s → Expr.ofSource s v = .error cause →
      Refuses opcode (computation subject source v) (.evaluation s cause (some ⟨opcode, subject⟩))
  | inputsWithoutBits {source : Option String} {s : String} : written? source = some s →
      Refuses opcode (noComputation source) (.invalidMetadata opcode (.inputsWithoutBits s))
  | outputsWithoutBits :
      Refuses opcode (outputBits none) (.invalidMetadata opcode .outputsWithoutBits)

end Requirement

/-- The requirements on computed bits of an arity. -/
def arityRequirements (arity : Arity) (pair : Nat × Nat) (computation : Option String) :
    List Requirement :=
  [.bits arity.name pair, .computation (.computed arity) computation .bits]

/-- The requirements on an argument. -/
def ArgumentDocument.requirements (d : ArgumentDocument) : List Requirement :=
  .bits d.name d.bits :: ((d.validRange.getD []).map (.entry d.name) ++
    [.computation (.argument d.name) d.computation .arg])

/-- The requirements on an operand. -/
def OperandDocument.requirements : OperandDocument → List Requirement
  | zero => []
  | arguments args => args.flatMap (·.requirements)

/-- The requirements on inputs. -/
def InputsDocument.requirements : InputsDocument → List Requirement
  | zero => []
  | declared _ (some pair) computation => arityRequirements .inputs pair computation
  | declared _ none computation => [.noComputation computation]

/-- The requirements on outputs. -/
def OutputsDocument.requirements : OutputsDocument → List Requirement
  | count _ => []
  | declared bits computation =>
    .outputBits bits :: bits.toList.flatMap (arityRequirements .outputs · computation)

/-- The requirements on the parts of a document, in the order of the checks. -/
def Document.requirements (d : Document) : List Requirement :=
  d.operand.requirements ++ (d.inputs.requirements ++ d.outputs.requirements)

/-- A requirement is the first one that a document does not meet. -/
def Document.FirstUnmet (d : Document) (q : Requirement) : Prop :=
  ∃ before behind, d.requirements = before ++ q :: behind ∧ (∀ p ∈ before, p.Met) ∧ ¬ q.Met

end OperandCodec
