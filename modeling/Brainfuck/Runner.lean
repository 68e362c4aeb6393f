import Brainfuck.Input.Source

/-!
# Bounded runs

A runner takes a machine to the end of its program, feeds it from a source whenever it waits for
input, and gives up after a number of steps. Attempts of a machine that waits do not count as steps,
and a run that reaches its end with its last step is no failure.
-/

namespace Brainfuck

structure RunOptions where
  /-- The most steps a run may take; zero means that there is no bound. -/
  stepLimit : Nat := 1 <<< 24
deriving DecidableEq, Repr

structure RunReport where
  /-- The steps that executed a character. -/
  steps : Nat := 0
  /-- The chunks of input that were supplied. -/
  refills : Nat := 0
deriving DecidableEq, Repr, Inhabited

structure Run (σ : Type) where
  machine : Machine
  source : σ
  report : RunReport := {}

inductive Turn where
  /-- A step executed a character. -/
  | executed
  /-- The machine was waiting and was given a chunk of input. -/
  | refilled (chunk : String)
  | ended (result : Except Error RunReport)

inductive RunEvent where
  /-- The machine is about to be stepped. -/
  | stepping
  /-- A turn is over and left the machine as it is. -/
  | turned (turn : Turn)

structure FinishedRun (σ : Type) where
  result : Except Error RunReport
  machine : Machine
  source : σ

namespace Run

variable {σ α : Type}

/-- The machine has taken all the steps it may and is not at the end of its program. -/
def atLimit (options : RunOptions) (r : Run σ) : Bool :=
  0 < options.stepLimit && options.stepLimit ≤ r.report.steps && !r.machine.isDone

/-- Step the machine once and refill it if it waits for input, or end the run at its limit. -/
def turn [InputSource σ] (options : RunOptions) (r : Run σ) : Turn × Run σ :=
  if r.atLimit options then
    (.ended (.error (.stepLimitExceeded options.stepLimit r.machine.ip)), r)
  else
    match r with
    | ⟨machine, source, report⟩ =>
      match machine.step with
      | (.executed, machine) =>
          (.executed, ⟨machine, source, { report with steps := report.steps + 1 }⟩)
      | (.blocked, machine) =>
        match InputSource.nextChunk source machine with
        | (.ok (some chunk), source) =>
            (.refilled chunk,
              ⟨machine.supply chunk, source, { report with refills := report.refills + 1 }⟩)
        | (.ok none, source) =>
            (.ended (.error (.inputExhausted machine.ip)), ⟨machine, source, report⟩)
        | (.error e, source) => (.ended (.error e), ⟨machine, source, report⟩)
      | (.done, machine) => (.ended (.ok report), ⟨machine.finish.2, source, report⟩)

/-- Take turns until the run is over, telling an observer what happens. There is no answer when
`fuel` turns are not enough. -/
@[specialize]
def drive [InputSource σ] (options : RunOptions) (observe : α → RunEvent → Machine → α) :
    Nat → α → Run σ → Option (α × FinishedRun σ)
  | 0, _, _ => none
  | fuel + 1, seen, r =>
    let seen := if r.atLimit options then seen else observe seen .stepping r.machine
    match r.turn options with
    | (.ended result, r) =>
        some (observe seen (.turned (.ended result)) r.machine, ⟨result, r.machine, r.source⟩)
    | (turn, r) => drive options observe fuel (observe seen (.turned turn) r.machine) r

end Run

namespace Machine

variable {σ α : Type} [InputSource σ]

/-- Run a machine on a source within bounds. -/
def runOn (options : RunOptions) (fuel : Nat) (m : Machine) (source : σ) :
    Option (FinishedRun σ) :=
  (Run.drive options (fun _ _ _ => ()) fuel () ⟨m, source, {}⟩).map Prod.snd

/-- Run a machine on a source within bounds and show it to an observer after every executed
step. -/
@[specialize]
def traceOn (options : RunOptions) (observe : α → Machine → α) (fuel : Nat) (seen : α)
    (m : Machine) (source : σ) : Option (α × FinishedRun σ) :=
  Run.drive options
    (fun seen event m =>
      match event with
      | .turned .executed => observe seen m
      | _ => seen)
    fuel seen ⟨m, source, {}⟩

end Machine

end Brainfuck
