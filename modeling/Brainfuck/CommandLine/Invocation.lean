import Brainfuck.CommandLine.Arguments
import Brainfuck.CommandLine.Folder
import Brainfuck.Input.Lines
import Brainfuck.Output.Forwarder
import Brainfuck.Program.Listing
import Brainfuck.Render

/-!
# Invocations

What the command line program does as a function of all that it is given: its arguments, its
standard input, and the host that reads arguments and files for it.
-/

namespace Brainfuck.CommandLine

/-- What the program relies on to understand its arguments and to read files. What a file holds does
not depend on standard input. -/
structure Host where
  /-- The options that a list of arguments comes to, `none` when it is refused. -/
  options? : List String → Option Options
  /-- The bytes of the file that a path leads to, or the cause why they cannot be read. -/
  read : String → Except String (List UInt8)

/-- What the program leaves behind. The log is taken to be off, as it is unless the environment asks
for it, so that standard error holds only what is shown here. -/
structure Response where
  exitCode : Nat
  stdout : List UInt8
  stderr : String
deriving DecidableEq, Repr

inductive Conclusion where
  | rejected
  | answered (response : Response)
deriving DecidableEq, Repr

/-- The text of the program that a file holds, given what became of reading the file. -/
def decodeProgram (path : String) (contents : Except String (List UInt8)) :
    Except Error String :=
  match contents with
  | .error cause => .error (.load path cause)
  | .ok bytes =>
    match String.fromUTF8? ⟨bytes.toArray⟩ with
    | some text => .ok text
    | none => .error (.load path invalidTextCause)

def Host.load (host : Host) : Option ProgramOrigin → Except Error String
  | none => .error .noProgram
  | some (.inline text) => .ok text
  | some (.file path) => decodeProgram path (host.read path)

def traceText (m : Machine) : String := m.renderStatus ++ "\n" ++ m.renderTape

def errorText (e : Error) : String := s!"Error: {e.message}\n"

/-- What is shown after a run: the tape if it is wanted or the run failed, and where the run failed
if it did. -/
def closingText (options : Options) (failed : Bool) (m : Machine) : String :=
  if failed then "\n" ++ m.renderPosition ++ m.renderTape
  else if options.dump then "\n" ++ m.renderTape
  else ""

def exitCode : Except Error Unit → Nat
  | .ok _ => 0
  | .error _ => 1

/-- The line that reports how all went, empty when it went well. -/
def resultText : Except Error Unit → String
  | .ok _ => ""
  | .error e => errorText e

/-- How all went, given the results of the run and of the last flush. The run comes first. -/
def overallResult (run : Except Error RunReport) (flushed : Except Error Unit) :
    Except Error Unit :=
  run.bind fun _ => flushed

def Options.machine (options : Options) (program : Program) : Machine :=
  (Machine.load program).supply options.input

/-- Run a program on a source, forwarding its output. -/
def runProgram {σ : Type} [InputSource σ] (fuel : Nat) (options : Options) (program : Program)
    (source : σ) : Option Response := do
  let observe (shown : String) (m : Machine) : String :=
    if options.trace then shown ++ traceText m else shown
  let forwarding : ForwardingSource ByteBuffer σ := ⟨{ writer := {} }, source⟩
  let (shown, run) ←
    (options.machine program).traceOn options.run observe fuel "" forwarding
  let (flushed, forwarder) := run.source.forwarder.flush run.machine
  let result := overallResult run.result flushed
  let closing := closingText options (run.result matches .error _) run.machine
  return ⟨exitCode result, forwarder.writer.bytes.toList, shown ++ closing ++ resultText result⟩

/-- What the program does with options that were accepted. -/
def Host.answer (host : Host) (fuel : Nat) (options : Options) (stdin : List UInt8) :
    Option Response :=
  match host.load options.program with
  | .error e => some ⟨exitCode (.error e), [], resultText (.error e)⟩
  | .ok text =>
    let program := Program.ofString text
    if options.disassemble then some ⟨exitCode (.ok ()), program.disassemble.toUTF8.toList, ""⟩
    else if options.useStdin then runProgram fuel options program (Lines.mk stdin)
    else runProgram fuel options program ({} : Script)

/-- What the program does. There is no answer when its run takes more than `fuel` turns. -/
def Host.conclude (host : Host) (fuel : Nat) (arguments : List String) (stdin : List UInt8) :
    Option Conclusion :=
  match host.options? arguments with
  | none => some .rejected
  | some options => (host.answer fuel options stdin).map .answered

/-- A host that reads arguments as they are written here and finds files in a folder. -/
def Folder.host (folder : Folder) : Host where
  options? := Options.ofArguments?
  read path := (folder.read path).mapError PathFault.cause

structure Invocation where
  arguments : List String
  stdin : List UInt8
  folder : Folder

def Invocation.conclude (fuel : Nat) (i : Invocation) : Option Conclusion :=
  i.folder.host.conclude fuel i.arguments i.stdin

end Brainfuck.CommandLine
