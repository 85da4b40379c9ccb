import OperandCodec.Cache.Inversions
import OperandCodec.Cache.Trees
import OperandCodec.Computation.Monad
import OperandCodec.Settings.Basic
import OperandCodec.Table
/-!
# Sessions

What the calls in one session share: the environment, the settings once
they are fixed, the two caches once they are used, and the table once one
is installed. The settings are fixed by the first call that installs them
or needs them; each cache takes its capacity from them at its first use. A
session answers the questions of `MonadComputation` from its caches.
-/

namespace OperandCodec

/-- The state that the calls in one session share. -/
structure Session where
  environment : Environment
  settings : Option Settings
  trees : Option TreeCache
  inversions : Option InversionMemo
  table : Option OpcodeTable

/-- A call in a session. -/
abbrev SessionM := StateM Session

namespace Session

/-- A session in which nothing has been called yet. -/
def start (env : Environment) : Session :=
  ⟨env, none, none, none, none⟩

/-- Sets a variable of the environment. -/
def setVariable (name value : String) : SessionM Unit :=
  modify fun p => { p with environment := (name, value) :: p.environment }

/-- The settings of the session; the environment fixes them if nothing has fixed them before. -/
def currentSettings : SessionM Settings := do
  let p ← get
  match p.settings with
  | some s => return s
  | none =>
    let s := Settings.ofEnvironment p.environment
    set { p with settings := some s }
    return s

/-- Fixes the settings, unless they are fixed; says whether it did. -/
def installSettings (s : Settings) : SessionM Bool := do
  let p ← get
  if p.settings.isSome then return false
  set { p with settings := some s }
  return true

/-- The cache of trees. -/
def treeCache : SessionM TreeCache := do
  match (← get).trees with
  | some c => return c
  | none =>
    let c := TreeCache.ofSize (← currentSettings).treeCacheSize
    modify fun p => { p with trees := some c }
    return c

/-- The memo of inversions. -/
def inversionMemo : SessionM InversionMemo := do
  match (← get).inversions with
  | some m => return m
  | none =>
    let m := InversionMemo.ofSize (← currentSettings).inversionCacheSize
    modify fun p => { p with inversions := some m }
    return m

/-- The tree of a source, from the cache. -/
def tree (source : String) (v : Variable) : SessionM (Except ParseError Expr) := do
  let (answer, c) := (← treeCache).tree source v
  modify fun p => { p with trees := some c }
  return answer

/-- The raw values that a computation maps to a target, from the memo. -/
def invert (c : Computation) (target : Value) (width : Nat) : SessionM Inversion := do
  let (answer, m) := (← inversionMemo).invert ⟨c.source, c.var, target, width⟩ c.expr
  modify fun p => { p with inversions := some m }
  return answer

/-- Every answer from the caches. -/
instance : MonadComputation SessionM where
  tree := tree
  invert := invert

/-- Installs a table, unless one is installed; says whether it did. -/
def installTable (t : OpcodeTable) : SessionM Bool := do
  let p ← get
  if p.table.isSome then return false
  set { p with table := some t }
  return true

end Session
end OperandCodec
