/-!
# Errors

What keeps a program from being run or from running to its end. The machine itself never fails;
errors come from loading programs, from input and output, and from the bounds set on a run.
-/

namespace Brainfuck

/-- Why a run failed. A cause is the description of the failure that lies below. -/
inductive Error where
  | load (path cause : String)
  | input (cause : String)
  | output (cause : String)
  /-- A run took all the steps it was allowed and is not at its end. -/
  | stepLimitExceeded (limit ip : Nat)
  /-- A read is waiting and there is no more input. -/
  | inputExhausted (ip : Nat)
  | noProgram
deriving DecidableEq, Repr

namespace Error

def message : Error → String
  | load path cause => s!"failed to read {path}: {cause}"
  | input cause => s!"failed to read input: {cause}"
  | output cause => s!"failed to write output: {cause}"
  | stepLimitExceeded limit ip => s!"step limit of {limit} exceeded at ip {ip}"
  | inputExhausted ip => s!"program is waiting for input at ip {ip} but none is left"
  | noProgram => "no program given (pass a file or -e <PROGRAM>)"

/-- The description of the failure below an error, where there is one. -/
def cause? : Error → Option String
  | load _ cause | input cause | output cause => some cause
  | stepLimitExceeded .. | inputExhausted .. | noProgram => none

end Error

def invalidTextCause : String := "stream did not contain valid UTF-8"

end Brainfuck
