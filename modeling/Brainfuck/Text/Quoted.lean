import Brainfuck.Text.Control
import Brainfuck.Text.Extending
import Brainfuck.Text.Unprintable

/-!
# Quoted characters

A character between single quotes, as logs and status lines show it. What could not be seen, or
would change what stands before it, is written as an escape.
-/

namespace Brainfuck.Text

/-- The escape of a character by its code point, in lowercase without leading zeros. -/
def codePointEscape (c : Char) : String :=
  "\\u\x7b" ++ String.ofList (Nat.toDigits 16 c.toNat) ++ "\x7d"

def escape (c : Char) : String :=
  match c with
  | '\x00' => "\\0"
  | '\t' => "\\t"
  | '\r' => "\\r"
  | '\n' => "\\n"
  | '\x27' => "\\'"
  | '\\' => "\\\\"
  | c =>
      if isPlain c then c.toString
      else if isExtending c || isUnprintable c then codePointEscape c
      else c.toString

def quote (c : Char) : String := "'" ++ escape c ++ "'"

end Brainfuck.Text
