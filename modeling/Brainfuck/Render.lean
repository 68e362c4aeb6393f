import Brainfuck.Machine.Basic
import Brainfuck.Text.Align
import Brainfuck.Text.Control
import Brainfuck.Text.Quoted

/-!
# Pictures of a machine

Plain text views for terminals: the tape in three aligned rows, the program with a caret under the
instruction pointer, and a line of status.
-/

namespace Brainfuck

/-- The character shown for a byte: a visible ASCII character or the blank as itself, all else as a
dot. -/
def printable (v : UInt8) : Char :=
  if Text.isPlain (Char.ofUInt8 v) then Char.ofUInt8 v else '·'

namespace Machine

/-- The width of a column of the tape picture, enough for a blank and any byte. -/
def columnWidth : Nat := 4

/-- The mark under a cell: the active one, the origin, both or neither. -/
def mark (m : Machine) (c : CellId) : Char :=
  match decide (c = m.active), decide (c = Tape.origin) with
  | true, true => '@'
  | true, false => '^'
  | false, true => '*'
  | false, false => ' '

/-- The values of the cells, the characters they stand for, and marks under the active cell and
the origin, from left to right. The last row ends with its last mark. -/
def renderTape (m : Machine) : String :=
  let values := m.tape.cells.map m.tape.value
  let numbers := Text.row columnWidth (values.map fun v => toString v.toNat)
  let characters := Text.row columnWidth (values.map fun v => (printable v).toString)
  let marks := Text.row columnWidth (m.tape.cells.map fun c => (m.mark c).toString)
  numbers ++ "\n" ++ characters ++ "\n" ++ Text.trimEnd marks ++ "\n"

/-- The program on one line, blanks in place of controls, and a caret under the instruction
pointer; past the program when that is at its end. -/
def renderPosition (m : Machine) : String :=
  let shown := m.program.chars.toList.map fun c => if Text.isControl c then ' ' else c
  String.ofList shown ++ "\n" ++ "".pushn ' ' m.ip ++ "^\n"

/-- The instruction pointer, the character there and the active cell on one line. -/
def renderStatus (m : Machine) : String :=
  let ip := Text.padEnd 5 (toString m.ip)
  let op := Text.padEnd 5 ((m.current?.map Text.quote).getD "end")
  let waiting := if m.blocked then " [waiting for input]" else ""
  s!"ip={ip} op={op} cell[{m.activeIndex}]={m.value}{waiting}"

end Machine

end Brainfuck
