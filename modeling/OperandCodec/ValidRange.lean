import OperandCodec.Word
/-!
# Valid ranges

The raw values that an argument permits: a list of single values and
inclusive intervals. An argument without such a list permits every raw
value; that it fits its bits is checked when it is packed.
-/

namespace OperandCodec

/-- One entry of a valid range. -/
inductive RangeEntry where
  | exact (v : Word)
  | interval (lo hi : Word)
deriving DecidableEq, Repr

namespace RangeEntry

/-- Whether an entry permits a value. -/
def contains (v : Value) : RangeEntry → Bool
  | exact w => v.toInt == w.toNat
  | interval lo hi => lo.toNat ≤ v.toInt && v.toInt ≤ hi.toNat

/-- An entry as a list of its bounds. -/
def text : RangeEntry → String
  | exact w => s!"[{w.toNat}]"
  | interval lo hi => s!"[{lo.toNat}, {hi.toNat}]"

end RangeEntry

/-- The permitted raw values of an argument. -/
structure ValidRange where
  entries : List RangeEntry
deriving DecidableEq, Repr

namespace ValidRange

/-- Whether some entry permits a value. -/
def contains (r : ValidRange) (v : Value) : Bool :=
  r.entries.any (·.contains v)

/-- A valid range as the list of its entries. -/
def text (r : ValidRange) : String :=
  "[" ++ ", ".intercalate (r.entries.map RangeEntry.text) ++ "]"

/-- Whether a value is permitted; where nothing is declared, every value is. -/
def permits (r : Option ValidRange) (v : Value) : Bool :=
  r.all (·.contains v)

end ValidRange
end OperandCodec
