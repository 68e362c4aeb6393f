import Brainfuck.Input.Lines
import Brainfuck.Output.Writer

/-!
# Recorders

Sources and writers that keep a record of how they are used, and behave like the ones they wrap.
-/

namespace Brainfuck

structure InputRequest where
  ip : Nat
  blocked : Bool
  /-- How many characters were printed. -/
  printed : Nat
deriving DecidableEq, Repr

/-- A source and the requests that reached it. -/
structure RecordedSource (σ : Type) where
  source : σ
  requests : Array InputRequest := #[]

instance {σ : Type} [InputSource σ] : InputSource (RecordedSource σ) where
  nextChunk r m :=
    let (chunk, source) := InputSource.nextChunk r.source m
    (chunk, ⟨source, r.requests.push ⟨m.ip, m.blocked, m.output.length⟩⟩)

inductive WriterEvent where
  /-- A write took these bytes. -/
  | wrote (bytes : List UInt8)
  | writeFailed
  | flushed
  | flushFailed
deriving DecidableEq, Repr

/-- A writer and what happened to it. -/
structure RecordedWriter (ω : Type) where
  writer : ω
  events : Array WriterEvent := #[]

instance {ω : Type} [ByteWriter ω] : ByteWriter (RecordedWriter ω) where
  write r bytes :=
    let (taken, writer) := ByteWriter.write r.writer bytes
    let event := match taken with
      | .ok n => .wrote (bytes.take n)
      | .error _ => .writeFailed
    (taken, ⟨writer, r.events.push event⟩)
  flush r :=
    let (result, writer) := ByteWriter.flush r.writer
    let event := match result with
      | .ok _ => .flushed
      | .error _ => .flushFailed
    (result, ⟨writer, r.events.push event⟩)

inductive SessionSource where
  | script (s : Script)
  | lines (s : Lines)
  | broken (s : BrokenSource)

instance : InputSource SessionSource where
  nextChunk
    | .script s, m => (InputSource.nextChunk s m).map id .script
    | .lines s, m => (InputSource.nextChunk s m).map id .lines
    | .broken s, m => (InputSource.nextChunk s m).map id .broken

end Brainfuck
