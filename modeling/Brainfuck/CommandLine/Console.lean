import Brainfuck.CommandLine.Invocation

/-!
# Consoles

The command line program as a conversation with the system it runs on. Input is read a line at a
time, when the machine waits for it, after what it printed has been written.
-/

namespace Brainfuck.CommandLine

/-- What the program uses of the system: its files and its standard streams. -/
structure Console (M : Type → Type) where
  /-- The bytes of a file. -/
  read : String → M (Except String (List UInt8))
  /-- The bytes of standard input up to and including the next line feed, none at its end. -/
  readLine : M (Except String (List UInt8))
  /-- Write to standard output and see to it that the bytes arrive. -/
  write : List UInt8 → M (Except String Unit)
  /-- Show on standard error. -/
  tell : String → M Unit

/-- A run that keeps what it prints in a buffer until it is written. -/
abbrev BufferedRun := Run (ForwardingSource ByteBuffer Lines)

/-- The next turn of a run asks its source for input. -/
def asksInput {σ : Type} (options : RunOptions) (r : Run σ) : Bool :=
  !r.atLimit options && (r.machine.blocked || r.machine.readsNothing)

namespace Console

variable {M : Type → Type} [Monad M] (console : Console M)

/-- Write what a machine printed since the last time. After a failure it is all still to be
written. -/
def flush (f : Forwarder ByteBuffer) (m : Machine) : M (Except Error (Forwarder ByteBuffer)) := do
  let sent := (f.flush m).2
  match ← console.write sent.writer.bytes.toList with
  | .error cause => return .error (.output cause)
  | .ok () => return .ok { sent with writer := {} }

def nextLine (options : Options) : M (Except Error Lines) := do
  if options.useStdin then
    match ← console.readLine with
    | .error cause => return .error (.input cause)
    | .ok line => return .ok ⟨line⟩
  else return .ok ⟨[]⟩

/-- Take a turn. If it asks for input, what was printed is written first and then a line is read. -/
def turn (options : Options) (r : BufferedRun) : M (Turn × BufferedRun) := do
  if asksInput options.run r then
    let machine := r.machine.step.2
    match ← console.flush r.source.forwarder machine with
    | .error e => return (.ended (.error e), { r with machine })
    | .ok forwarder =>
      match ← console.nextLine options with
      | .error e => return (.ended (.error e), ⟨machine, ⟨forwarder, ⟨[]⟩⟩, r.report⟩)
      | .ok line => return Run.turn options.run ⟨r.machine, ⟨forwarder, line⟩, r.report⟩
  else return r.turn options.run

/-- Take turns until the run is over, and show the machine after each step if that is wanted. -/
@[specialize]
def run (options : Options) :
    Nat → BufferedRun → M (Option (FinishedRun (ForwardingSource ByteBuffer Lines)))
  | 0, _ => return none
  | fuel + 1, r => do
    match ← console.turn options r with
    | (.ended result, r) => return some ⟨result, r.machine, r.source⟩
    | (.refilled _, r) => run options fuel r
    | (.executed, r) =>
      if options.trace then console.tell (traceText r.machine)
      run options fuel r

def load : Option ProgramOrigin → M (Except Error String)
  | none => return .error .noProgram
  | some (.inline text) => return .ok text
  | some (.file path) => return decodeProgram path (← console.read path)

def exit (result : Except Error Unit) : M Nat := do
  console.tell (resultText result)
  return exitCode result

def close (options : Options) (fin : FinishedRun (ForwardingSource ByteBuffer Lines)) : M Nat := do
  let flushed ← console.flush fin.source.forwarder fin.machine
  console.tell (closingText options (fin.result matches .error _) fin.machine)
  console.exit (overallResult fin.result (flushed.map fun _ => ()))

def play (options : Options) (fuel : Nat) (program : Program) : M (Option Nat) := do
  match ← console.run options fuel
      ⟨options.machine program, ⟨{ writer := {} }, ⟨[]⟩⟩, {}⟩ with
  | none => return none
  | some fin => return some (← console.close options fin)

/-- Do what the options ask for. There is no exit code when a run takes more than `fuel` turns. -/
def perform (options : Options) (fuel : Nat) : M (Option Nat) := do
  match ← console.load options.program with
  | .error e => return some (← console.exit (.error e))
  | .ok text =>
    let program := Program.ofString text
    if options.disassemble then
      let written ← console.write program.disassemble.toUTF8.toList
      return some (← console.exit (written.mapError .output))
    else console.play options fuel program

end Console

end Brainfuck.CommandLine
