import Brainfuck.Input.Source
import Brainfuck.Output.Writer
import Brainfuck.Text.Position

/-!
# Forwarding output

A forwarder sends what a machine prints to a writer, one byte a character. It remembers the position
in the machine's output up to which it has sent. When the output of the machine it is shown has no
such position, as after a reset, nothing is pending.
-/

namespace Brainfuck

/-- A writer and the part of a machine's output that it has received. -/
structure Forwarder (ω : Type) where
  writer : ω
  /-- The position in the output up to which all is written. -/
  written : String.Pos.Raw := 0

namespace Forwarder

variable {ω : Type}

/-- The part of an output that is still to be written. -/
def pending (f : Forwarder ω) (output : String) : String :=
  (Text.from? output f.written).getD ""

/-- Start over on the same writer. -/
def rewind (f : Forwarder ω) : Forwarder ω := { writer := f.writer }

variable [ByteWriter ω]

/-- Write what is pending. After a failure it all stays pending, also what the writer took. -/
def send (f : Forwarder ω) (m : Machine) : Except String Unit × Forwarder ω :=
  let pending := f.pending m.output
  if pending.isEmpty then (.ok (), f)
  else
    match writeAll f.writer (Text.lowBytes pending) with
    | (.ok (), w) => (.ok (), ⟨w, m.output.rawEndPos⟩)
    | (.error cause, w) => (.error cause, { f with writer := w })

/-- Write what is pending and flush the writer, the latter also when nothing is pending. -/
def flush (f : Forwarder ω) (m : Machine) : Except Error Unit × Forwarder ω :=
  match f.send m with
  | (.error cause, f) => (.error (.output cause), f)
  | (.ok (), f) =>
    let (result, w) := ByteWriter.flush f.writer
    (result.mapError .output, { f with writer := w })

variable {f f₁ : Forwarder ω} {m : Machine} {w : ω}

theorem flush_of_ok (hs : f.send m = (.ok (), f₁)) (hw : ByteWriter.flush f₁.writer = (.ok (), w)) :
    f.flush m = (.ok (), { f₁ with writer := w }) := by
  simp only [flush, hs, hw]
  rfl

theorem flush_of_error {cause : String} (hs : f.send m = (.ok (), f₁))
    (hw : ByteWriter.flush f₁.writer = (.error cause, w)) :
    f.flush m = (.error (.output cause), { f₁ with writer := w }) := by
  simp only [flush, hs, hw]
  rfl

end Forwarder

/-- A source whose machine has its output forwarded before each request. -/
structure ForwardingSource (ω σ : Type) where
  forwarder : Forwarder ω
  source : σ

instance {ω σ : Type} [ByteWriter ω] [InputSource σ] : InputSource (ForwardingSource ω σ) where
  nextChunk s m :=
    match s.forwarder.flush m with
    | (.error e, f) => (.error e, { s with forwarder := f })
    | (.ok (), f) =>
      let (chunk, source) := InputSource.nextChunk s.source m
      (chunk, ⟨f, source⟩)

end Brainfuck
