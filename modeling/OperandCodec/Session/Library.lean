import OperandCodec.Session.Request
/-!
# Calls of the library

The calls that a caller makes with values it holds: the computations and
opcodes that came out of calls before. A computation is opaque to its
callers, so the computations that a call is made with
(`LibraryCall.computations`) are among those that were handed out
(`LibraryAnswer.computations`, `Answer.computations`).
-/

namespace OperandCodec

/-- The computation of computed inputs. -/
def Inputs.computation? : Inputs → Option Computation
  | computed _ c => c
  | _ => none

/-- The computation of computed outputs. -/
def Outputs.computation? : Outputs → Option Computation
  | computed _ c => c
  | _ => none

/-- The computations of a record: of its arguments, its inputs and its outputs. -/
def Record.computations (r : Record) : List Computation :=
  r.arguments.filterMap (·.computation) ++ r.inputs.computation?.toList ++
    r.outputs.computation?.toList

/-- The computations of the opcodes of a table. -/
def OpcodeTable.computations (t : OpcodeTable) : List Computation :=
  t.opcodes.flatMap (·.computations)

/-! ## The calls -/

/-- A call of the library. -/
inductive LibraryCall where
  | compile (source : String) (v : Variable)
  | evaluate (source : String) (v : Variable) (x : Value)
  | apply (c : Computation) (x : Value)
  | invert (c : Computation) (target : Value) (width : Nat)
  /-- An opcode from a record that the caller has put together. -/
  | opcode (r : Record)
  | loadOpcode (text : String)
  | loadTable (text : String)
  | loadTexts (texts : List String)
  /-- Building, reading, rendering and whatever else is asked of an opcode. -/
  | ask (op : Opcode) (q : OpcodeQuery)

/-- The answer to such a call. -/
inductive LibraryAnswer where
  | computation (c : Except Error Computation)
  | value (v : Except Error Value)
  | raws (raws : Except Error (List Word))
  | opcode (op : Except Error Opcode)
  | table (t : Except TableError OpcodeTable)
  | asked (a : Except Error OpcodeAnswer)

/-- Answers a call of the library. -/
def LibraryCall.answer {m : Type → Type} [Monad m] [MonadComputation m] :
    LibraryCall → m LibraryAnswer
  | compile source v => return .computation (← (Computation.compile source v).run)
  | evaluate source v x => return .value (← (Computation.evaluate source v x).run)
  | apply c x => return .value (c.apply x)
  | invert c target width => return .raws (← (c.invert target width).run)
  | opcode r => return .opcode (Opcode.ofRecord r)
  | loadOpcode text => return .opcode (← (Opcode.ofText text).run)
  | loadTable text => return .table (← (OpcodeTable.ofText text).run)
  | loadTexts texts => return .table (← (OpcodeTable.ofDocumentTexts texts).run)
  | ask op q => return .asked (← (q.answer op).run)

/-- A call of the library in a session. -/
def LibraryCall.perform (c : LibraryCall) : SessionM LibraryAnswer :=
  c.answer

/-! ## What is handed over and what is handed out -/

/-- The computations that a call is made with. -/
def LibraryCall.computations : LibraryCall → List Computation
  | apply c _ | invert c _ _ => [c]
  | opcode r => r.computations
  | ask op _ => op.computations
  | _ => []

/-- The computations in an answer about an opcode. -/
def OpcodeAnswer.computations : OpcodeAnswer → List Computation
  | all op => op.computations
  | argument (some a) => a.computation.toList
  | _ => []

/-- The computations in an answer about a table. -/
def TableAnswer.computations : TableAnswer → List Computation
  | summary t => t.computations
  | opcode (.ok a) => a.computations
  | _ => []

/-- The computations in an answer of the library. -/
def LibraryAnswer.computations : LibraryAnswer → List Computation
  | computation (.ok c) => [c]
  | opcode (.ok op) => op.computations
  | table (.ok t) => t.computations
  | asked (.ok a) => a.computations
  | _ => []

/-- The computations in the answer to a request. -/
def Answer.computations : Answer → List Computation
  | tableInstalled t | tableRejected t => t.computations
  | table a => a.computations
  | call (.computation c) => [c]
  | call (.table t) => t.computations
  | _ => []

end OperandCodec
