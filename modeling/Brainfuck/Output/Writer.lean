/-!
# Byte writers

Where the bytes of an output go. A writer may take fewer bytes than it is offered, and a write or
a flush may fail with a cause.
-/

namespace Brainfuck

/-- A consumer of bytes. A write that was only interrupted and is to be tried again is no answer
here: what fails, fails for good. -/
class ByteWriter (ω : Type) where
  /-- Offer bytes; the answer is how many were taken, from the front. -/
  write : ω → List UInt8 → Except String Nat × ω
  /-- See to it that the bytes taken arrive. -/
  flush : ω → Except String Unit × ω

/-- The cause given when a writer takes nothing and gives no cause of its own. -/
def shortWriteCause : String := "failed to write whole buffer"

/-- Offer bytes until all are taken or a write fails. No write is tried again. -/
def writeAll {ω : Type} [ByteWriter ω] (writer : ω) (bytes : List UInt8) :
    Except String Unit × ω :=
  match bytes with
  | [] => (.ok (), writer)
  | b :: rest =>
    match ByteWriter.write writer (b :: rest) with
    | (.error cause, writer) => (.error cause, writer)
    | (.ok 0, writer) => (.error shortWriteCause, writer)
    | (.ok (n + 1), writer) => writeAll writer (rest.drop n)
termination_by bytes.length

/-- A writer with limited room. Without a limit it takes everything. -/
structure Sink where
  /-- How many bytes it still takes. -/
  room : Option Nat := none
  /-- Why flushing fails, if it does. -/
  flushCause : Option String := none
deriving DecidableEq, Repr, Inhabited

namespace Sink

def closedCause : String := "closed"

end Sink

instance : ByteWriter Sink where
  write sink bytes :=
    match sink.room with
    | none => (.ok bytes.length, sink)
    | some 0 => (.error Sink.closedCause, sink)
    | some (room + 1) =>
        let taken := min (room + 1) bytes.length
        (.ok taken, { sink with room := some (room + 1 - taken) })
  flush sink :=
    match sink.flushCause with
    | none => (.ok (), sink)
    | some cause => (.error cause, sink)

structure ByteBuffer where
  bytes : Array UInt8 := #[]
deriving DecidableEq, Repr, Inhabited

instance : ByteWriter ByteBuffer where
  write buffer bytes := (.ok bytes.length, ⟨buffer.bytes.appendList bytes⟩)
  flush buffer := (.ok (), buffer)

end Brainfuck
