import Brainfuck.Tape.Basic

/-!
# Tape sessions

Commands on a tape that is worked on by hand. Handles may outlive their tape, so a command may name
a cell that the tape does not have; it is refused then and changes nothing.
-/

namespace Brainfuck

inductive TapeCommand where
  | right (c : CellId)
  | left (c : CellId)
  | set (c : CellId) (v : UInt8)
  | increment (c : CellId)
  | decrement (c : CellId)
  | value (c : CellId)
  | indexOf (c : CellId)
  /-- Which of two cells was added first. -/
  | compare (c d : CellId)
  | fresh
  | save
  /-- Go on with a copy of a tape that was kept. -/
  | restore (slot : Nat)

inductive TapeReply where
  | done
  | cell (c : CellId)
  | value (v : UInt8)
  | index (n : Nat)
  | order (o : Ordering)
  | slot (n : Nat)
  | unknownCell
  | unknownSlot

structure TapeSession where
  tape : Tape := .fresh
  saved : Array Tape := #[]

namespace TapeSession

def change (s : TapeSession) (t : Tape) : TapeReply × TapeSession :=
  (.done, { s with tape := t })

/-- Do what is asked with a cell that the tape has. -/
def withCell (s : TapeSession) (c : CellId) (act : TapeReply × TapeSession) :
    TapeReply × TapeSession :=
  if c ∈ s.tape then act else (.unknownCell, s)

def perform (s : TapeSession) : TapeCommand → TapeReply × TapeSession
  | .right c =>
      let (d, t) := s.tape.rightOf c
      s.withCell c (.cell d, { s with tape := t })
  | .left c =>
      let (d, t) := s.tape.leftOf c
      s.withCell c (.cell d, { s with tape := t })
  | .set c v => s.withCell c (s.change (s.tape.set c v))
  | .increment c => s.withCell c (s.change (s.tape.increment c))
  | .decrement c => s.withCell c (s.change (s.tape.decrement c))
  | .value c => s.withCell c (.value (s.tape.value c), s)
  | .indexOf c => (.index (s.tape.indexOf c), s)
  | .compare c d => (.order (compare c d), s)
  | .fresh => s.change .fresh
  | .save => (.slot s.saved.size, { s with saved := s.saved.push s.tape })
  | .restore slot =>
    match s.saved[slot]? with
    | some t => s.change t
    | none => (.unknownSlot, s)

end TapeSession

end Brainfuck
