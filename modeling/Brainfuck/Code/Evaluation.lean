import Brainfuck.Code.Basic
import Brainfuck.Machine.Basic

/-!
# Evaluation

What code means, on a tape without ends whose cells are numbered by the integers. Code either ends
or stops at a read that has no input; code that does neither is not evaluated to anything.
-/

namespace Brainfuck

/-- All that code can see and change. -/
structure Config where
  cells : Int → UInt8
  position : Int
  input : List Char
  output : List Char

namespace Config

def initial (input : List Char) : Config := ⟨fun _ => 0, 0, input, []⟩

def value (s : Config) : UInt8 := s.cells s.position

def write (s : Config) (v : UInt8) : Config :=
  { s with cells := fun i => if i = s.position then v else s.cells i }

/-- What a character does that is not the bracket of a loop, `none` when it reads and there is no
input. -/
def act (s : Config) (c : Char) : Option Config :=
  match c with
  | '+' => some (s.write (s.value + 1))
  | '-' => some (s.write (s.value - 1))
  | '<' => some { s with position := s.position - 1 }
  | '>' => some { s with position := s.position + 1 }
  | '.' => some { s with output := s.output ++ [Char.ofUInt8 s.value] }
  | ',' =>
    match s.input with
    | [] => none
    | c :: rest => some { s.write c.val.toUInt8 with input := rest }
  | _ => some s

end Config

/-- Evaluating code from one configuration ends in another, in this way. -/
inductive Code.Evaluates : Code → Config → Outcome → Config → Prop
  | done {s} : Evaluates .done s .completed s
  | act {c rest s t o u} : s.act c = some t → Evaluates rest t o u →
      Evaluates (.char c rest) s o u
  | wait {c rest s} : s.act c = none → Evaluates (.char c rest) s .blocked s
  | leave {body rest s o u} : s.value = 0 → Evaluates rest s o u →
      Evaluates (.loop body rest) s o u
  | repeat {body rest s t o u} : s.value ≠ 0 → Evaluates body s .completed t →
      Evaluates (.loop body rest) t o u → Evaluates (.loop body rest) s o u
  | waitInside {body rest s t} : s.value ≠ 0 → Evaluates body s .blocked t →
      Evaluates (.loop body rest) s .blocked t
  | give {rest s} : s.value = 0 → Evaluates (.unclosed rest) s .completed s
  | ignore {rest s o u} : s.value ≠ 0 → Evaluates rest s o u →
      Evaluates (.unclosed rest) s o u

/-- What code would see of a machine: the tape around the origin, zero where it has no cells. -/
def Machine.config (m : Machine) : Config where
  cells i := ((m.tape.cellAt? i).map m.tape.value).getD 0
  position := (m.tape.offset? m.active).getD 0
  input := m.input
  output := m.output.toList

end Brainfuck
