import Brainfuck.Program.Brackets
import Brainfuck.Tape.Basic

/-!
# Machines

A machine holds a program and all that running it one character at a time needs. Nothing here
fails: comments and unmatched brackets do nothing, and a read with no input blocks the machine
until input is supplied.
-/

namespace Brainfuck

inductive Step where
  /-- A character was executed, be it a comment. -/
  | executed
  /-- A read found no input, now or before. -/
  | blocked
  /-- The instruction pointer is past the end of the program. -/
  | done
deriving DecidableEq, Repr

inductive Outcome where
  /-- The program ran off its end. -/
  | completed
  /-- A read is waiting for input. -/
  | blocked
deriving DecidableEq, Repr

/-- A program in execution. -/
structure Machine where
  program : Program
  tape : Tape
  /-- The cell that instructions work on. -/
  active : CellId
  /-- The position of the next character. -/
  ip : Nat
  /-- Where the loops that have been entered start, innermost first. -/
  loops : List Nat
  /-- The characters that reads will take, in order. -/
  input : List Char
  /-- What the program printed, a character for each byte. -/
  output : String
  /-- A read is waiting for input. -/
  blocked : Bool

namespace Machine

/-- A machine at the start of a program. -/
def load (p : Program) : Machine where
  program := p
  tape := .fresh
  active := Tape.origin
  ip := 0
  loops := []
  input := []
  output := ""
  blocked := false

instance : Inhabited Machine := ⟨load ⟨#[]⟩⟩

def current? (m : Machine) : Option Char := m.program.chars[m.ip]?

def isDone (m : Machine) : Bool := m.program.size ≤ m.ip

def value (m : Machine) : UInt8 := m.tape.value m.active

/-- The position of the active cell from the left end of the tape. -/
def activeIndex (m : Machine) : Nat := m.tape.indexOf m.active

/-- The next character is a read and there is no input for it. -/
def readsNothing (m : Machine) : Bool :=
  m.current?.bind Instruction.decode? = some .input && m.input.isEmpty

/-- Execute an instruction, taken to be the one at the instruction pointer. -/
def execute (m : Machine) : Instruction → Step × Machine
  | .increment => (.executed, { m with tape := m.tape.increment m.active, ip := m.ip + 1 })
  | .decrement => (.executed, { m with tape := m.tape.decrement m.active, ip := m.ip + 1 })
  | .moveLeft =>
      let (c, t) := m.tape.leftOf m.active
      (.executed, { m with tape := t, active := c, ip := m.ip + 1 })
  | .moveRight =>
      let (c, t) := m.tape.rightOf m.active
      (.executed, { m with tape := t, active := c, ip := m.ip + 1 })
  | .loopStart =>
      if m.value = 0 then (.executed, { m with ip := m.program.skipLoop m.ip })
      else (.executed, { m with loops := m.ip :: m.loops, ip := m.ip + 1 })
  | .loopEnd =>
      match m.loops with
      | [] => (.executed, { m with ip := m.ip + 1 })
      | start :: outer =>
          -- A loop is left through its start, where the cell is tested again.
          if m.value = 0 then (.executed, { m with loops := outer, ip := m.ip + 1 })
          else (.executed, { m with loops := outer, ip := start })
  | .output =>
      (.executed, { m with output := m.output.push (Char.ofUInt8 m.value), ip := m.ip + 1 })
  | .input =>
      match m.input with
      | [] => (.blocked, { m with blocked := true })
      | c :: rest =>
          (.executed,
            { m with tape := m.tape.set m.active c.val.toUInt8, input := rest, ip := m.ip + 1 })

/-- Execute the character at the instruction pointer. -/
def step (m : Machine) : Step × Machine :=
  if m.blocked then (.blocked, m)
  else
    match m.current? with
    | none => (.done, m)
    | some c =>
      match Instruction.decode? c with
      | some i => m.execute i
      | none => (.executed, { m with ip := m.ip + 1 })

/-- Add characters to the input. A machine that is waiting for input may go on. -/
def supply (m : Machine) (text : String) : Machine :=
  { m with input := m.input ++ text.toList, blocked := false }

/-- Replace the program under everything else. -/
def setProgram (m : Machine) (p : Program) : Machine :=
  { m with program := p }

/-- Start over with the same program. -/
def reset (m : Machine) : Machine :=
  load m.program

/-- Close a run that cannot go on: go back to the start of the program unless the machine is
waiting for input. The loops that were entered stay entered. -/
def finish (m : Machine) : Outcome × Machine :=
  if m.blocked then (.blocked, m) else (.completed, { m with ip := 0 })

end Machine

end Brainfuck
