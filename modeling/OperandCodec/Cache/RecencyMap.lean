import OperandCodec.Cache.Trees
/-!
# Maps that order their entries by use

The cache of trees over a map that is known by its operations only. What the
operations do to the entries is said by laws (`RecencyMap.Lawful`): a key that
is found or put becomes the most recently used one, and putting drops what was
used longest ago where there are more entries than the capacity allows. A list
of entries is such a map (`RecencyMap.ofLists`), and a cache over any such map
can be viewed as one with a list (`TreeStore.view`).
-/

namespace OperandCodec

/-- A map that can be asked for its entries, the most recently used first. -/
structure RecencyMap (κ α : Type) where
  State : Type
  /-- The empty map for a capacity. -/
  new : Nat → State
  get : κ → State → Option α × State
  put : κ → α → State → State
  size : State → Nat
  capacity : State → Nat
  entries : State → List (κ × α)

namespace RecencyMap

variable {κ α : Type} [BEq κ]

/-- What the operations of a map do to its entries. Nothing is said of a map without capacity. -/
structure Lawful (M : RecencyMap κ α) : Prop where
  capacity_new : ∀ n, 0 < n → M.capacity (M.new n) = n
  entries_new : ∀ n, 0 < n → M.entries (M.new n) = []
  size_eq : ∀ s, M.size s = (M.entries s).length
  capacity_get : ∀ k s, M.capacity (M.get k s).2 = M.capacity s
  /-- What is found is the value kept for the key. -/
  get_eq : ∀ k s, (M.get k s).1 = (M.entries s).lookup k
  /-- A key that is found becomes the most recently used one. -/
  entries_get_of_some : ∀ k s a, (M.entries s).lookup k = some a →
    M.entries (M.get k s).2 = (k, a) :: (M.entries s).filter (·.1 != k)
  /-- Asking for a key that is not there changes nothing. -/
  entries_get_of_none : ∀ k s, (M.entries s).lookup k = none →
    M.entries (M.get k s).2 = M.entries s
  capacity_put : ∀ k a s, M.capacity (M.put k a s) = M.capacity s
  /-- A key that is put becomes the most recently used one, with the new value; above the capacity
  the entries used longest ago are dropped. -/
  entries_put : ∀ k a s, M.entries (M.put k a s) =
    ((k, a) :: (M.entries s).filter (·.1 != k)).take (M.capacity s)

/-- A capacity and a list of entries. -/
def ofLists : RecencyMap κ α where
  State := Nat × List (κ × α)
  new n := (n, [])
  get k s :=
    match s.2.lookup k with
    | some a => (some a, s.1, (k, a) :: s.2.filter (·.1 != k))
    | none => (none, s)
  put k a s := (s.1, ((k, a) :: s.2.filter (·.1 != k)).take s.1)
  size s := s.2.length
  capacity s := s.1
  entries s := s.2

end RecencyMap

/-- A cache of trees over a map, with the numbers of hits and misses. -/
structure TreeStore (M : RecencyMap TreeKey Expr) where
  map : M.State
  hits : Nat
  misses : Nat

namespace TreeStore

variable {M : RecencyMap TreeKey Expr}

/-- The empty cache for a size; it holds at least one tree. -/
def ofSize (M : RecencyMap TreeKey Expr) (size : Nat) : TreeStore M :=
  ⟨M.new (max size 1), 0, 0⟩

/-- The tree of a source, and the cache afterwards. -/
def tree (s : TreeStore M) (source : String) (v : Variable) :
    Except ParseError Expr × TreeStore M :=
  let key := (v, source)
  match M.get key s.map with
  | (some e, map) => (.ok e, ⟨map, s.hits + 1, s.misses⟩)
  | (none, map) =>
    match Expr.ofSource source v with
    | .error err => (.error err, ⟨map, s.hits, s.misses + 1⟩)
    | .ok e => (.ok e, ⟨M.put key e map, s.hits, s.misses + 1⟩)

/-- The entries of the map as those of a cache with a list. -/
def view (s : TreeStore M) : TreeCache :=
  ⟨M.capacity s.map, M.entries s.map, s.hits, s.misses⟩

end TreeStore
end OperandCodec
