import Brainfuck.CommandLine.Console

/-!
# The program

The command line program on the real file system and the real standard streams.
-/

namespace Brainfuck.CommandLine

/-- The description of a failure of the system, with its code where there is one. -/
def describeFailure : IO.Error → String
  | .alreadyExists _ code details | .interrupted _ code details
  | .noFileOrDirectory _ code details | .invalidArgument _ code details
  | .permissionDenied _ code details | .resourceExhausted _ code details
  | .inappropriateType _ code details | .noSuchThing _ code details
  | .otherError code details | .resourceBusy code details | .resourceVanished code details
  | .unsupportedOperation code details | .hardwareFault code details
  | .unsatisfiedConstraints code details | .illegalOperation code details
  | .protocolError code details | .timeExpired code details =>
      s!"{details} (os error {code})"
  | .unexpectedEof => "unexpected end of file"
  | .userError details => details

/-- Carry out an action and describe how it failed if it did. -/
def describing {α : Type} (action : IO α) : IO (Except String α) := do
  try return .ok (← action)
  catch e => return .error (describeFailure e)

def usage : String :=
  String.join
    ["usage: [OPTIONS] [FILE]\n",
      "  -e, --execute PROGRAM  run this program\n",
      "  --input TEXT           supply this input before the program starts\n",
      "  --step-limit N         give up after N steps, never if N is zero\n",
      "  --trace                show the machine after each step\n",
      "  --dump                 show the tape at the end\n",
      "  --disassemble          show a listing of the program and do not run it\n",
      "  --no-stdin             read no input when the program waits for some\n"]

/-- The bytes up to and including the next line feed. -/
partial def readLine (stdin : IO.FS.Stream) (line : Array UInt8) : IO (Array UInt8) := do
  let bytes ← stdin.read 1
  let line := line ++ bytes.data
  if bytes.isEmpty || line.back? = some Lines.lineFeed then return line
  readLine stdin line

def systemConsole : Console IO where
  read path := describing do
    return (← (← IO.FS.Handle.mk path .read).readBinToEnd).toList
  readLine := describing do return (← readLine (← IO.getStdin) #[]).toList
  write bytes := describing do
    let stdout ← IO.getStdout
    stdout.write ⟨bytes.toArray⟩
    stdout.flush
  tell := IO.eprint

/-- More turns than a run can take in any time there is. -/
def maxTurns : Nat := 1 <<< 62

def start (arguments : List String) : IO UInt32 := do
  match Options.ofArguments? arguments with
  | none =>
    IO.eprint usage
    return 2
  | some options =>
    let code ← systemConsole.perform options maxTurns
    return (code.getD 1).toUInt32

end Brainfuck.CommandLine

def main : List String → IO UInt32 := Brainfuck.CommandLine.start
