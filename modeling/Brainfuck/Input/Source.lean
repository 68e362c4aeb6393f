import Brainfuck.Error
import Brainfuck.Machine.Basic

/-!
# Input sources

A source hands out input in chunks, each time a machine waits for some. It may look at the
machine, and it may fail.
-/

namespace Brainfuck

class InputSource (σ : Type) where
  /-- The next chunk for a machine that waits for input, `none` when nothing is left, and the
  source that remains. -/
  nextChunk : σ → Machine → Except Error (Option String) × σ

/-- Chunks fixed in advance, handed out in order. -/
structure Script where
  chunks : List String := []
deriving DecidableEq, Repr, Inhabited

instance : InputSource Script where
  nextChunk
    | ⟨[]⟩, _ => (.ok none, ⟨[]⟩)
    | ⟨chunk :: rest⟩, _ => (.ok (some chunk), ⟨rest⟩)

structure BrokenSource where
  cause : String
deriving DecidableEq, Repr

instance : InputSource BrokenSource where
  nextChunk source _ := (.error (.input source.cause), source)

end Brainfuck
