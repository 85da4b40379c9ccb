import OperandCodec.Expr.Parser
/-!
# The cache of trees

Trees of sources that have been parsed, the most recently used first. A
source that is found moves to the front; one that is not is parsed, and its
tree is put in front, where the last one falls out when the cache is full.
A source without a tree counts as a miss and leaves no trace besides. The
same source over the two variables has two entries.
-/

namespace OperandCodec

/-- A source over a variable. -/
abbrev TreeKey := Variable × String

/-- The trees kept, the most recently used first, and how often they were found and not found. -/
structure TreeCache where
  capacity : Nat
  entries : List (TreeKey × Expr)
  hits : Nat
  misses : Nat
deriving Repr

namespace TreeCache

/-- The empty cache for a size; it holds at least one tree. -/
def ofSize (size : Nat) : TreeCache :=
  ⟨max size 1, [], 0, 0⟩

/-- The tree of a source, and the cache afterwards. -/
def tree (c : TreeCache) (source : String) (v : Variable) :
    Except ParseError Expr × TreeCache :=
  let key := (v, source)
  match c.entries.lookup key with
  | some e =>
    (.ok e, { c with entries := (key, e) :: c.entries.filter (·.1 != key), hits := c.hits + 1 })
  | none =>
    match Expr.ofSource source v with
    | .error err => (.error err, { c with misses := c.misses + 1 })
    | .ok e =>
      (.ok e, { c with
        entries := ((key, e) :: c.entries).take c.capacity
        misses := c.misses + 1 })

end TreeCache
end OperandCodec
