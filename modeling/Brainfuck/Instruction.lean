/-!
# Instructions

A program gives the machine eight characters to act on; every other character is a comment.
`decode?_eq_some_iff` says that an instruction is written by its symbol and by nothing else.
-/

namespace Brainfuck

/-- The family an instruction is highlighted with. -/
inductive TokenClass where
  | arithmetic
  | pointer
  | transfer
  | bracket
deriving DecidableEq, Repr

inductive Instruction where
  | increment
  | decrement
  | moveLeft
  | moveRight
  | loopStart
  | loopEnd
  | output
  | input
deriving DecidableEq, Repr

namespace Instruction

/-- The instruction that a program character stands for, `none` when it is a comment. -/
def decode? : Char → Option Instruction
  | '+' => some .increment
  | '-' => some .decrement
  | '<' => some .moveLeft
  | '>' => some .moveRight
  | '[' => some .loopStart
  | ']' => some .loopEnd
  | '.' => some .output
  | ',' => some .input
  | _ => none

def symbol : Instruction → Char
  | .increment => '+'
  | .decrement => '-'
  | .moveLeft => '<'
  | .moveRight => '>'
  | .loopStart => '['
  | .loopEnd => ']'
  | .output => '.'
  | .input => ','

def tokenClass : Instruction → TokenClass
  | .increment | .decrement => .arithmetic
  | .moveLeft | .moveRight => .pointer
  | .output | .input => .transfer
  | .loopStart | .loopEnd => .bracket

/-- The word for an instruction in a listing. -/
def mnemonic : Instruction → String
  | .increment => "INC"
  | .decrement => "DEC"
  | .moveLeft => "LEFT"
  | .moveRight => "RIGHT"
  | .loopStart => "LOOP"
  | .loopEnd => "END"
  | .output => "OUT"
  | .input => "IN"

@[simp] theorem decode?_symbol (i : Instruction) : decode? i.symbol = some i := by
  cases i <;> rfl

theorem symbol_of_decode? {c : Char} {i : Instruction} (h : decode? c = some i) :
    i.symbol = c := by
  unfold decode? at h
  split at h <;> first | cases h; rfl | cases h

theorem decode?_eq_some_iff {c : Char} {i : Instruction} :
    decode? c = some i ↔ c = i.symbol :=
  ⟨fun h => (symbol_of_decode? h).symm, fun h => h ▸ decode?_symbol i⟩

end Instruction

def isInstruction (c : Char) : Bool :=
  (Instruction.decode? c).isSome

end Brainfuck
