import Brainfuck.Program.Basic

/-!
# Spans

A program is highlighted by the longest runs of adjacent instructions of one family. A comment
ends a run and belongs to none.
-/

namespace Brainfuck

/-- A run of instructions of one family, from `start` up to but not including `stop`. -/
structure Span where
  start : Nat
  stop : Nat
  tokenClass : TokenClass
deriving DecidableEq, Repr

namespace Span

/-- Add the token at position `i` to the spans before it, the nearest of which comes first: a
token right after a span of its own family lengthens that span. -/
def addToken (spans : List Span) (i : Nat) (c : TokenClass) : List Span :=
  match spans with
  | s :: rest =>
      if s.tokenClass = c ∧ s.stop = i then { s with stop := i + 1 } :: rest
      else ⟨i, i + 1, c⟩ :: s :: rest
  | [] => [⟨i, i + 1, c⟩]

end Span

/-- The runs of a program from left to right. -/
def Program.spans (p : Program) : List Span :=
  (p.instructions.foldl (fun spans (i, ins) => Span.addToken spans i ins.tokenClass) []).reverse

end Brainfuck
