import OperandCodec.Computation.Inversion
/-!
# The memo of inversions

Outcomes of searches, each with the count of its last use. Every use takes
the next count, so the counts order the entries by recency. When a search
finds the memo full, the entries used longest ago make room for it, a
quarter of the capacity at once.
-/

namespace OperandCodec

/-- What a search was asked for. The width is the one given, also above sixteen. -/
structure InversionKey where
  source : String
  var : Variable
  target : Value
  width : Nat
deriving DecidableEq, Repr

/-- An outcome, and the count of its last use. -/
structure InversionEntry where
  key : InversionKey
  outcome : Inversion
  lastUse : Nat
deriving DecidableEq, Repr

/-- The outcomes kept, the number of uses so far, and how often they were found and not found. -/
structure InversionMemo where
  capacity : Nat
  entries : List InversionEntry
  uses : Nat
  hits : Nat
  misses : Nat
deriving Repr

namespace InversionMemo

/-- The empty memo for a size; it holds at least one outcome. -/
def ofSize (size : Nat) : InversionMemo :=
  ⟨max size 1, [], 0, 0, 0⟩

/-- How many entries are dropped at once. -/
def quota (m : InversionMemo) : Nat :=
  max (m.capacity / 4) 1

/-- How many entries were last used before `e`. -/
def older (m : InversionMemo) (e : InversionEntry) : Nat :=
  (m.entries.filter (·.lastUse < e.lastUse)).length

/-- The entries without the `quota` that were used longest ago. -/
def evicted (m : InversionMemo) : List InversionEntry :=
  m.entries.filter fun e => m.quota ≤ m.older e

/-- The outcome for a key, searched with its tree where it is not kept, and the memo afterwards. -/
def invert (m : InversionMemo) (key : InversionKey) (e : Expr) : Inversion × InversionMemo :=
  let now := m.uses + 1
  match m.entries.find? (·.key == key) with
  | some entry =>
    let touch (x : InversionEntry) := if x.key = key then { x with lastUse := now } else x
    (entry.outcome, { m with entries := m.entries.map touch, uses := now, hits := m.hits + 1 })
  | none =>
    let outcome := e.search key.target key.width
    let kept := if m.capacity ≤ m.entries.length then m.evicted else m.entries
    (outcome, { m with
      entries := ⟨key, outcome, now⟩ :: kept
      uses := now
      misses := m.misses + 1 })

/-- The memo as a diagnostic line shows it. -/
def describe (m : InversionMemo) : String :=
  "InverseCache \x7b " ++ s!"entries: {m.entries.length}, max_entries: {m.capacity}, " ++
    s!"hits: {m.hits}, misses: {m.misses}" ++ " \x7d"

end InversionMemo
end OperandCodec
