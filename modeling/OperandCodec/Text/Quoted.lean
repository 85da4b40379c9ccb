import OperandCodec.Text.Printable
/-!
# Quoted text

A text between double quotes in which every character can be seen: quotes
and backslashes are escaped, the usual controls have letters, and any other
character without a printed form is written by its code point.
-/

namespace OperandCodec
namespace Text

/-- One character of a quoted text. -/
def quotedChar (c : Char) : String :=
  match c with
  | '\x00' => "\\0"
  | '\t' => "\\t"
  | '\r' => "\\r"
  | '\n' => "\\n"
  | '"' => "\\\""
  | '\\' => "\\\\"
  | c =>
    if isPrintable c then String.singleton c
    else "\\u\x7b" ++ String.ofList (Nat.toDigits 16 c.toNat) ++ "\x7d"

/-- A text in quotes. -/
def quoted (s : String) : String :=
  "\"" ++ String.join (s.toList.map quotedChar) ++ "\""

example : quoted "a\"\u200b" = "\"a\\\"\\u\x7b200b\x7d\"" := by decide +kernel

end Text
end OperandCodec
