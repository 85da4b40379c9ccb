import OperandCodec.Json.Parser
import OperandCodec.Json.Skip
/-!
# Keys of objects

What can be said about the keys of a text without a look at its values, and
about the keys of a value at every depth. The keys of a text are gathered
passing over the values, so that a text has keys however deep its values
are nested and whatever their numbers and their escapes stand for.
-/

namespace OperandCodec
namespace Json

/-- Gathers the keys of an object, and passes over their values. -/
def gatherKeys : Visitor (List String) := fun keys key =>
  .ok fun s => (skip s).map fun (_, r) => (keys ++ [key], r)

/-- The keys of the object that a whole text holds, in text order. -/
def objectKeys? (text : String) : Option (List String) :=
  match (skipSpace text.toList).1 with
  | '\x7b' :: t =>
    match entries gatherKeys [] t with
    | .ok (keys, r) => (finish r.1).toOption.map fun _ => keys
    | .error _ => none
  | _ => none

mutual
/-- Whether no object in a value, at any depth, repeats a key. -/
def keysDistinct : Json → Bool
  | array items => itemsDistinct items
  | object fields => fieldsDistinct fields
  | _ => true

/-- Whether no object in an item of an array repeats a key. -/
def itemsDistinct : List Json → Bool
  | [] => true
  | v :: vs => v.keysDistinct && itemsDistinct vs

/-- Whether an object repeats no key, and no object in its fields does. -/
def fieldsDistinct : List (String × Json) → Bool
  | [] => true
  | (k, v) :: fs => !fs.any (·.1 == k) && v.keysDistinct && fieldsDistinct fs
end

end Json
end OperandCodec
