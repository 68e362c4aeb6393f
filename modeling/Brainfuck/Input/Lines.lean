import Brainfuck.Input.Source

/-!
# Line input

Input read a line at a time from a stream of bytes. A line runs up to and including a line feed,
or to the end of the stream. A line that is not text is passed over as a failure, and the lines
after it are not affected.
-/

namespace Brainfuck

/-- The bytes of a stream that are still to be read. -/
structure Lines where
  bytes : List UInt8
deriving DecidableEq, Repr

namespace Lines

def lineFeed : UInt8 := 0x0A

/-- The first line of a stream, with its line feed, and the rest of the stream. -/
def splitLine (bytes : List UInt8) : List UInt8 × List UInt8 :=
  let line := bytes.takeWhile (· ≠ lineFeed)
  match bytes.dropWhile (· ≠ lineFeed) with
  | [] => (line, [])
  | b :: rest => (line ++ [b], rest)

def decodeLine (line : List UInt8) : Except Error String :=
  match String.fromUTF8? ⟨line.toArray⟩ with
  | some text => .ok text
  | none => .error (.input invalidTextCause)

instance : InputSource Lines where
  nextChunk
    | ⟨[]⟩, _ => (.ok none, ⟨[]⟩)
    | ⟨b :: rest⟩, _ =>
        let (line, rest) := splitLine (b :: rest)
        ((decodeLine line).map some, ⟨rest⟩)

end Lines

end Brainfuck
