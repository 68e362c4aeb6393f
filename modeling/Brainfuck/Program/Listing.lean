import Brainfuck.Program.Basic
import Brainfuck.Text.Align

/-!
# Listings

A listing shows one instruction a line: its position in at least four digits, its symbol and its
mnemonic, indented by two blanks for each loop around it. Comments are left out.
-/

namespace Brainfuck

structure ListingLine where
  position : Nat
  depth : Nat
  instruction : Instruction
deriving DecidableEq, Repr

namespace ListingLine

def text (l : ListingLine) : String :=
  Text.padStart 4 '0' (toString l.position) ++ ": " ++ "".pushn ' ' (2 * l.depth) ++
    l.instruction.symbol.toString ++ " " ++ l.instruction.mnemonic ++ "\n"

end ListingLine

namespace Program

/-- The lines so far and the depth of the next instruction. A loop end stands at the depth of its
loop start, and at depth zero when it ends no loop. -/
def listInstruction (lines : Array ListingLine × Nat) (position : Nat) (i : Instruction) :
    Array ListingLine × Nat :=
  match i with
  | .loopStart => (lines.1.push ⟨position, lines.2, i⟩, lines.2 + 1)
  | .loopEnd => (lines.1.push ⟨position, lines.2 - 1, i⟩, lines.2 - 1)
  | _ => (lines.1.push ⟨position, lines.2, i⟩, lines.2)

def listing (p : Program) : List ListingLine :=
  (p.instructions.foldl (fun lines (i, ins) => listInstruction lines i ins) (#[], 0)).1.toList

def disassemble (p : Program) : String :=
  String.join (p.listing.map ListingLine.text)

end Program

end Brainfuck
