import OperandCodec.Session.Library
/-!
# Steps of a session

Calls that are made in a session one after another, each with its answer and
with the session before it and behind it. Every call counts that reads or
changes what is shared: the requests, the calls of the library, and the
installation of a table that the caller has at hand.
-/

namespace OperandCodec

/-- A call in a session, of whichever kind. -/
inductive SessionCall where
  | request (r : Request)
  | library (c : LibraryCall)
  | installTable (t : OpcodeTable)

/-- The answer to a call in a session. -/
inductive SessionAnswer where
  | request (a : Answer)
  | library (a : LibraryAnswer)

/-- Makes a call. -/
def SessionCall.perform : SessionCall → SessionM SessionAnswer
  | request r => return .request (← r.answer)
  | library c => return .library (← c.perform)
  | installTable t => do
    if ← Session.installTable t then return .request (.tableInstalled t)
    else return .request (.tableRejected t)

/-- A call that was made, with its answer. -/
structure Step where
  before : Session
  call : SessionCall
  answer : SessionAnswer
  after : Session

/-- The step that a call makes in a session. -/
def Session.step (p : Session) (c : SessionCall) : Step :=
  ⟨p, c, (c.perform.run p).1, (c.perform.run p).2⟩

/-- The steps that calls make in turn. -/
def Session.steps (p : Session) : List SessionCall → List Step
  | [] => []
  | c :: cs => p.step c :: (p.step c).after.steps cs

end OperandCodec
