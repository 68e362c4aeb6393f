/-!
# Plain and control characters

The two ends of the scale: characters that every terminal shows as they are, and characters that
steer a terminal.
-/

namespace Brainfuck.Text

/-- A visible ASCII character or the blank. -/
def isPlain (c : Char) : Bool := 0x20 ≤ c.toNat && c.toNat ≤ 0x7E

/-- A control character, of ASCII or of the block after it. -/
def isControl (c : Char) : Bool := c.toNat < 0x20 || (0x7F ≤ c.toNat && c.toNat < 0xA0)

end Brainfuck.Text
