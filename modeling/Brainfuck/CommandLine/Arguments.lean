import Brainfuck.Runner

/-!
# Arguments

What a command line can ask for, and one way to read it, in two stages: each argument by its form,
into a list of settings, and then the settings together, where each may be made once only.
-/

namespace Brainfuck.CommandLine

inductive ValueOption where
  | execute
  | input
  | stepLimit
deriving DecidableEq, Repr

inductive Flag where
  | trace
  | dump
  | disassemble
  | noStdin
deriving DecidableEq, Repr

/-- What one or two arguments ask for. -/
inductive Setting where
  | value (o : ValueOption) (v : String)
  | flag (f : Flag)
  | file (path : String)
deriving DecidableEq, Repr

def ValueOption.ofName? : String → Option ValueOption
  | "execute" => some .execute
  | "input" => some .input
  | "step-limit" => some .stepLimit
  | _ => none

def Flag.ofName? : String → Option Flag
  | "trace" => some .trace
  | "dump" => some .dump
  | "disassemble" => some .disassemble
  | "no-stdin" => some .noStdin
  | _ => none

inductive Form where
  /-- All arguments after this one are files. -/
  | separator
  | complete (s : Setting)
  /-- The value of the option is the next argument. -/
  | pending (o : ValueOption)
  | unknown

/-- The form of an argument after two dashes. A value may be attached by an equals sign. -/
def Form.ofLong (text : List Char) : Form :=
  let name := String.ofList (text.takeWhile (· ≠ '='))
  match ValueOption.ofName? name, Flag.ofName? name, text.dropWhile (· ≠ '=') with
  | some o, _, [] => .pending o
  | some o, _, _ :: v => .complete (.value o (String.ofList v))
  | none, some f, [] => .complete (.flag f)
  | _, _, _ => .unknown

/-- The form of an argument. The value of a short option is attached as it is, or by an equals
sign. A dash alone is the name of a file. -/
def Form.ofArgument (argument : String) : Form :=
  match argument.toList with
  | ['-', '-'] => .separator
  | '-' :: '-' :: text => .ofLong text
  | ['-', 'e'] => .pending .execute
  | '-' :: 'e' :: '=' :: v => .complete (.value .execute (String.ofList v))
  | '-' :: 'e' :: v => .complete (.value .execute (String.ofList v))
  | '-' :: _ :: _ => .unknown
  | _ => .complete (.file argument)

/-- An argument that may be the value of the option before it. -/
def isSeparateValue (argument : String) : Bool :=
  argument.toList.head? ≠ some '-' || argument = "-"

def settings? : List String → Option (List Setting)
  | [] => some []
  | argument :: rest =>
    match Form.ofArgument argument with
    | .separator => some (rest.map .file)
    | .complete s => (settings? rest).map (s :: ·)
    | .pending o =>
      match rest with
      | v :: rest => if isSeparateValue v then (settings? rest).map (.value o v :: ·) else none
      | [] => none
    | .unknown => none

def maxStepLimit : Nat := UInt64.size - 1

/-- Read a step limit: decimal digits, perhaps after a plus sign. -/
def stepLimit? (text : String) : Option Nat :=
  let digits := match text.toList with
    | '+' :: rest => rest
    | cs => cs
  if digits ≠ [] ∧ digits.all Char.isDigit then
    let n := Nat.ofDigitChars 10 digits 0
    if n ≤ maxStepLimit then some n else none
  else none

inductive ProgramOrigin where
  | inline (text : String)
  | file (path : String)
deriving DecidableEq, Repr

structure Options where
  program : Option ProgramOrigin := none
  /-- Input that is supplied before the program starts. -/
  input : String := ""
  run : RunOptions := {}
  /-- Show the machine after each step. -/
  trace : Bool := false
  /-- Show the tape at the end. -/
  dump : Bool := false
  /-- Show a listing of the program and do not run it. -/
  disassemble : Bool := false
  /-- Read more input when the program waits for some. -/
  useStdin : Bool := true
deriving DecidableEq, Repr

/-- The only element of a list if there is one; a list of several is refused. -/
def atMostOne? {α : Type} : List α → Option (Option α)
  | [] => some none
  | [a] => some (some a)
  | _ => none

/-- Where the program comes from, of all the texts and files given for it. A file needs a name. -/
def origin? (texts paths : List String) : Option (Option ProgramOrigin) :=
  match texts, paths with
  | [], [] => some none
  | [text], [] => some (some (.inline text))
  | [], [path] => if path.isEmpty then none else some (some (.file path))
  | _, _ => none

/-- The options that settings come to, `none` when one is made twice, when two of them exclude
each other or when a value is not proper. -/
def Options.ofSettings? (settings : List Setting) : Option Options := do
  let values (o : ValueOption) : List String :=
    settings.filterMap fun
      | .value p v => if p = o then some v else none
      | _ => none
  let flag? (f : Flag) : Option Bool := do
    let found ← atMostOne? (settings.filter (· = .flag f))
    return found.isSome
  let paths := settings.filterMap fun
    | .file path => some path
    | _ => none
  let program ← origin? (values .execute) paths
  let input ← atMostOne? (values .input)
  let limit ← atMostOne? (values .stepLimit)
  let run ← match limit with
    | some text => (stepLimit? text).map RunOptions.mk
    | none => some {}
  let trace ← flag? .trace
  let dump ← flag? .dump
  let disassemble ← flag? .disassemble
  let noStdin ← flag? .noStdin
  return {
    program, run, trace, dump, disassemble
    input := input.getD ""
    useStdin := !noStdin }

/-- The options that a list of arguments comes to, `none` when it is refused. -/
def Options.ofArguments? (arguments : List String) : Option Options :=
  (settings? arguments).bind Options.ofSettings?

end Brainfuck.CommandLine
