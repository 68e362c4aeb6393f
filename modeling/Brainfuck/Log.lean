import Brainfuck.Runner
import Brainfuck.Text.Quoted

/-!
# Log records

What a machine and its runner note down as they work. The records of an operation are a function of
the machine that it starts from, so that the operations themselves know nothing of them.
-/

namespace Brainfuck

inductive LogLevel where
  | trace
  | debug
  | info
deriving DecidableEq, Repr

inductive LogOrigin where
  | machine
  | runner
deriving DecidableEq, Repr

structure LogRecord where
  level : LogLevel
  origin : LogOrigin
  message : String
deriving DecidableEq, Repr

namespace LogRecord

def executing (m : Machine) (c : Char) : LogRecord :=
  ⟨.trace, .machine, s!"ip={m.ip} op={Text.quote c} cell={m.value}"⟩

def blocking (m : Machine) : LogRecord :=
  ⟨.debug, .machine, s!"blocked on input at ip={m.ip}"⟩

def completed (m : Machine) : LogRecord :=
  ⟨.debug, .machine, s!"program completed, {m.output.length} output chars"⟩

def resetting (m : Machine) : LogRecord :=
  ⟨.debug, .machine, s!"engine reset ({m.tape.size} cells discarded)"⟩

def refilling (m : Machine) (chunk : String) : LogRecord :=
  ⟨.debug, .runner, s!"refilling {chunk.length} input chars at ip={m.ip}"⟩

def finished (report : RunReport) : LogRecord :=
  ⟨.info, .runner, s!"run finished in {report.steps} steps ({report.refills} refills)"⟩

end LogRecord

/-- What is noted when a machine is stepped. -/
def Machine.stepRecords (m : Machine) : List LogRecord :=
  if m.blocked then []
  else
    match m.current? with
    | none => []
    | some c => .executing m c :: if m.readsNothing then [.blocking m] else []

def Outcome.records (m : Machine) : Outcome → List LogRecord
  | .completed => [.completed m]
  | .blocked => []

def RunEvent.records (m : Machine) : RunEvent → List LogRecord
  | .stepping => m.stepRecords
  | .turned .executed => []
  | .turned (.refilled chunk) => [.refilling m chunk]
  | .turned (.ended (.ok report)) => [.completed m, .finished report]
  | .turned (.ended (.error _)) => []

end Brainfuck
