import OperandCodec.Session.Basic
import OperandCodec.Record.Query
import OperandCodec.Settings.File
/-!
# Requests to a session

The calls that can be made in a session, as data, and the answers. A call
that needs no session (`Call`) is answered by any monad that answers for
computations, so that its answer in a session can be compared with the
answer that is found afresh. A list of requests is answered in turn
(`Request.answerAll`).
-/

namespace OperandCodec

/-- A question about a table. -/
inductive TableQuery where
  | summary
  | primaryName (name : String)
  | opcode (name : String) (q : OpcodeQuery)

/-- An answer about a table. -/
inductive TableAnswer where
  | summary (t : OpcodeTable)
  | primaryName (name : Option String)
  | opcode (a : Except Error OpcodeAnswer)
  | unknownOpcode (name : String)

/-- Answers a question about a table. -/
def TableQuery.answer {m : Type → Type} [Monad m] [MonadComputation m] (t : OpcodeTable) :
    TableQuery → m TableAnswer
  | summary => return .summary t
  | primaryName name => return .primaryName ((t.get? name).map (·.name))
  | opcode name q =>
    match t.get? name with
    | none => return .unknownOpcode name
    | some op => do return .opcode (← (q.answer op).run)

/-- A call that needs no session: it has the same answer wherever and whenever it is made. -/
inductive Call where
  | compile (source : String) (v : Variable)
  | evaluate (source : String) (v : Variable) (x : Value)
  | invert (source : String) (v : Variable) (target : Value) (width : Nat)
  | loadTable (text : String)

/-- The answer to such a call. -/
inductive CallAnswer where
  | computation (c : Computation)
  | value (v : Value)
  | raws (raws : List Word)
  | failed (e : Error)
  | table (t : OpcodeTable)
  | tableFailed (e : TableError)

/-- Answers a call that needs no session. -/
def Call.answer {m : Type → Type} [Monad m] [MonadComputation m] : Call → m CallAnswer
  | compile source v => orFailed .computation (Computation.compile source v)
  | evaluate source v x => orFailed .value (Computation.evaluate source v x)
  | invert source v target width => orFailed .raws do
    let c ← Computation.compile source v
    c.invert target width
  | loadTable text => do
    match ← (OpcodeTable.ofText text : ExceptT _ m _).run with
    | .ok t => return .table t
    | .error e => return .tableFailed e
where
  /-- Answers with a result, or with the error that stands in its place. -/
  orFailed {m : Type → Type} [Monad m] {α : Type} (f : α → CallAnswer) (x : ExceptT Error m α) :
      m CallAnswer := do
    match ← x.run with
    | .ok a => return f a
    | .error e => return .failed e

/-- A call in a session. -/
inductive Request where
  | setVariable (name value : String)
  | defaultSettings
  | environmentSettings
  | currentSettings
  | overrideSettings (s : Settings)
  | fileSettings (content : Except FileError String)
  | installSettings (s : Settings)
  | treeStatistics
  | inversionStatistics
  | installTable (text : String)
  | askTable (q : TableQuery)
  | call (c : Call)

/-- The answer to a call in a session. -/
inductive Answer where
  | done
  | settings (s : Settings)
  | settingsFailed (e : SettingsError)
  | settingsInstalled
  | settingsRejected (s : Settings)
  | trees (c : TreeCache)
  | inversions (m : InversionMemo)
  | tableFailed (e : TableError)
  | tableInstalled (t : OpcodeTable)
  | tableRejected (t : OpcodeTable)
  | table (a : TableAnswer)
  | noTable
  | call (a : CallAnswer)

namespace Request

/-- Answers a call. -/
def answer : Request → SessionM Answer
  | setVariable name value => do
    Session.setVariable name value
    return .done
  | defaultSettings => return .settings .defaults
  | environmentSettings => do return .settings (.ofEnvironment (← get).environment)
  | currentSettings => do return .settings (← Session.currentSettings)
  | overrideSettings s => do return .settings (s.withEnvironment (← get).environment)
  | fileSettings content => do
    match Settings.ofFile (← get).environment content with
    | .ok s => return .settings s
    | .error e => return .settingsFailed e
  | installSettings s => do
    if ← Session.installSettings s then return .settingsInstalled else return .settingsRejected s
  | treeStatistics => do return .trees (← Session.treeCache)
  | inversionStatistics => do return .inversions (← Session.inversionMemo)
  | installTable text => do
    match ← (OpcodeTable.ofText text : ExceptT _ SessionM _).run with
    | .ok t =>
      if ← Session.installTable t then return .tableInstalled t else return .tableRejected t
    | .error e => return .tableFailed e
  | askTable q => do
    match (← get).table with
    | some t => return .table (← q.answer t)
    | none => return .noTable
  | call c => do return .call (← c.answer)

/-- Answers calls in turn. -/
def answerAll (requests : List Request) : SessionM (List Answer) :=
  requests.mapM answer

end Request
end OperandCodec
