import Brainfuck.Log
import Brainfuck.Machine.Run
import Brainfuck.Output.Forwarder
import Brainfuck.Render
import Brainfuck.Session.Recorder

/-!
# Machine sessions

Commands on a machine that is worked on by hand, with a source to read from and a forwarder for what
it prints. A session notes for each command what was traced, logged, requested and written.
-/

namespace Brainfuck

inductive Route where
  | direct
  /-- The source behind the forwarder, which writes output before each request. -/
  | forwarded
deriving DecidableEq, Repr

inductive TraceStyle where
  /-- Numbers of the machine. -/
  | brief
  /-- Pictures of the machine. -/
  | full
deriving DecidableEq, Repr

inductive TraceEntry where
  | brief (ip activeIndex : Nat) (value : UInt8)
  | full (status tape : String)
deriving DecidableEq, Repr

namespace TraceEntry

def ofMachine (m : Machine) : TraceStyle → TraceEntry
  | .brief => .brief m.ip m.activeIndex m.value
  | .full => .full m.renderStatus m.renderTape

end TraceEntry

inductive MachineCommand where
  | step (times : Nat)
  | run
  | supply (text : String)
  | setProgram (program : Program)
  | reset
  /-- Keep a copy of the machine. -/
  | save
  /-- Go on with a copy of a machine that was kept. -/
  | restore (slot : Nat)
  | inspect
  | program
  | status
  | render
  /-- Read from another source from now on. -/
  | source (s : SessionSource)
  /-- Forward to a new writer. -/
  | forward (writer : Sink)
  /-- Forward to the same writer from the beginning. -/
  | rewrap
  /-- Change the writer under the forwarder. -/
  | writer (writer : Sink)
  | flush
  | nextChunk (route : Route)
  | runBounded (options : RunOptions) (route : Route) (trace : Option TraceStyle)

inductive Answer where
  | done
  | steps (results : Array Step)
  | outcome (outcome : Outcome)
  | slot (n : Nat)
  | unknownSlot
  | text (s : String)
  | picture (tape position status : String)
  | chunk (chunk : Option String)
  | report (report : RunReport)
  | failed (error : Error)

structure Notes where
  /-- Whether log records are noted. -/
  logging : Bool
  trace : Array TraceEntry := #[]
  log : Array LogRecord := #[]

namespace Notes

@[macro_inline]
def addLog (notes : Notes) (records : List LogRecord) : Notes :=
  if notes.logging then { notes with log := notes.log.appendList records } else notes

def addTrace (notes : Notes) (entry : TraceEntry) : Notes :=
  { notes with trace := notes.trace.push entry }

def addEvent (trace : Option TraceStyle) (notes : Notes) (event : RunEvent) (m : Machine) : Notes :=
  let notes := notes.addLog (event.records m)
  match event, trace with
  | .turned .executed, some style => notes.addTrace (.ofMachine m style)
  | _, _ => notes

end Notes

/-- A machine with its surroundings. -/
structure MachineSession where
  machine : Machine
  saved : Array Machine := #[]
  source : RecordedSource SessionSource := ⟨.script {}, #[]⟩
  forwarder : Forwarder (RecordedWriter Sink) := { writer := ⟨{}, #[]⟩ }

structure Reply where
  answer : Answer
  notes : Notes
  session : MachineSession

namespace MachineSession

def stepTimes : Nat → Array Step → Notes → Machine → Array Step × Notes × Machine
  | 0, results, notes, m => (results, notes, m)
  | n + 1, results, notes, m =>
      let notes := notes.addLog m.stepRecords
      let (result, m) := m.step
      stepTimes n (results.push result) notes m

def chunkAnswer : Except Error (Option String) → Answer
  | .ok chunk => .chunk chunk
  | .error e => .failed e

def runAnswer : Except Error RunReport → Answer
  | .ok report => .report report
  | .error e => .failed e

/-- The source that the forwarder stands in front of, with the forwarder. -/
def forwarding (s : MachineSession) :
    ForwardingSource (RecordedWriter Sink) (RecordedSource SessionSource) :=
  ⟨s.forwarder, s.source⟩

/-- Carry out a command. Runs that take more than `fuel` steps have no answer. -/
def perform (fuel : Nat) (s : MachineSession) (notes : Notes) : MachineCommand → Option Reply
  | .step times =>
      let (results, notes, m) := stepTimes times #[] notes s.machine
      some ⟨.steps results, notes, { s with machine := m }⟩
  | .run => do
      let (notes, outcome, m) ←
        Machine.runWith (fun notes m => notes.addLog m.stepRecords) fuel notes s.machine
      return ⟨.outcome outcome, notes.addLog (outcome.records m), { s with machine := m }⟩
  | .supply text => some ⟨.done, notes, { s with machine := s.machine.supply text }⟩
  | .setProgram p => some ⟨.done, notes, { s with machine := s.machine.setProgram p }⟩
  | .reset =>
      some ⟨.done, notes.addLog [.resetting s.machine], { s with machine := s.machine.reset }⟩
  | .save => some ⟨.slot s.saved.size, notes, { s with saved := s.saved.push s.machine }⟩
  | .restore slot =>
    match s.saved[slot]? with
    | some m => some ⟨.done, notes, { s with machine := m }⟩
    | none => some ⟨.unknownSlot, notes, s⟩
  | .inspect => some ⟨.done, notes, s⟩
  | .program => some ⟨.text s.machine.program.text, notes, s⟩
  | .status => some ⟨.text s.machine.renderStatus, notes, s⟩
  | .render =>
      let m := s.machine
      some ⟨.picture m.renderTape m.renderPosition m.renderStatus, notes, s⟩
  | .source source => some ⟨.done, notes, { s with source := ⟨source, #[]⟩ }⟩
  | .forward sink => some ⟨.done, notes, { s with forwarder := { writer := ⟨sink, #[]⟩ } }⟩
  | .rewrap => some ⟨.done, notes, { s with forwarder := s.forwarder.rewind }⟩
  | .writer sink =>
      let writer := { s.forwarder.writer with writer := sink }
      some ⟨.done, notes, { s with forwarder := { s.forwarder with writer } }⟩
  | .flush =>
    match s.forwarder.flush s.machine with
    | (.ok (), forwarder) => some ⟨.done, notes, { s with forwarder }⟩
    | (.error e, forwarder) => some ⟨.failed e, notes, { s with forwarder }⟩
  | .nextChunk .direct =>
      let (chunk, source) := InputSource.nextChunk s.source s.machine
      some ⟨chunkAnswer chunk, notes, { s with source }⟩
  | .nextChunk .forwarded =>
      let (chunk, ⟨forwarder, source⟩) := InputSource.nextChunk s.forwarding s.machine
      some ⟨chunkAnswer chunk, notes, { s with source, forwarder }⟩
  | .runBounded options .direct trace => do
      let (notes, ⟨result, machine, source⟩) ←
        Run.drive options (Notes.addEvent trace) fuel notes ⟨s.machine, s.source, {}⟩
      return ⟨runAnswer result, notes, { s with machine, source }⟩
  | .runBounded options .forwarded trace => do
      let (notes, ⟨result, machine, ⟨forwarder, source⟩⟩) ←
        Run.drive options (Notes.addEvent trace) fuel notes ⟨s.machine, s.forwarding, {}⟩
      return ⟨runAnswer result, notes, { s with machine, source, forwarder }⟩

def forget (s : MachineSession) : MachineSession :=
  { s with
    source := { s.source with requests := #[] }
    forwarder :=
      { s.forwarder with writer := { s.forwarder.writer with events := #[] } } }

end MachineSession

end Brainfuck
