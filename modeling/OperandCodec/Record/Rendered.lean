import OperandCodec.CommandLine.Options
import OperandCodec.Record.Decode
/-!
# Rendered texts

What a rendered text shows of a word, and the text taken apart again: the
values between its angle brackets, and the assignment that they make to the
arguments that are rendered.
-/

namespace OperandCodec

/-- The values between the angle brackets of a text, if they can all be read. A text without
brackets has none. -/
def bracketedValues? (text : String) : Option (List Value) :=
  match text.toList.dropWhile (· != '<') with
  | [] => some []
  | _ :: s => ((s.takeWhile (· != '>')).splitOn ' ').mapM CommandLine.readValue?

namespace Record

/-- The arguments that are rendered: all but the one that the call implies. -/
def visible (r : Record) : List Argument :=
  r.arguments.filter (!·.isInputs)

/-- The values of the rendered arguments in a word, in declaration order. -/
def visibleValues (r : Record) (w : Word) : Except Error (List Value) :=
  r.visible.mapM (·.decode w)

/-- Values for the rendered arguments, in declaration order. -/
def assigning (r : Record) (vs : List Value) : Assignment :=
  .ofPairs ((r.visible.map (·.name)).zip vs)

end Record
end OperandCodec
