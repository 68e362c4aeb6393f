import Brainfuck.Program.Basic

/-!
# Code

A program by its loops. Each opening bracket that is closed becomes a loop around the code up to its
closing bracket; an opening bracket that is never closed stands before the rest of the program, and
a closing bracket that closes nothing is a character like a comment.
-/

namespace Brainfuck

/-- Code, a part at a time. -/
inductive Code where
  | done
  /-- A character that is not the bracket of a loop. -/
  | char (c : Char) (rest : Code)
  | loop (body rest : Code)
  /-- An opening bracket that is never closed. -/
  | unclosed (rest : Code)
deriving DecidableEq, Repr

namespace Code

def append : Code → Code → Code
  | .done, k => k
  | .char c rest, k => .char c (rest.append k)
  | .loop body rest, k => .loop body (rest.append k)
  | .unclosed rest, k => .unclosed (rest.append k)

/-- Code that is read from right to left: the code up to the nearest closing bracket that waits for
its opening bracket, and the codes after each such bracket, nearest first. -/
structure Suffix where
  inner : Code
  outer : List Code

namespace Suffix

def cons (c : Char) (s : Suffix) : Suffix :=
  match c, s.outer with
  | ']', outer => ⟨.done, s.inner :: outer⟩
  | '[', rest :: outer => ⟨.loop s.inner rest, outer⟩
  | '[', [] => ⟨.unclosed s.inner, []⟩
  | c, outer => ⟨.char c s.inner, outer⟩

def toCode (s : Suffix) : Code :=
  s.outer.foldl (fun code rest => code.append (.char ']' rest)) s.inner

end Suffix

/-- The code that characters spell. -/
def ofChars (cs : List Char) : Code :=
  (cs.foldr Suffix.cons ⟨.done, []⟩).toCode

@[simp] theorem append_done (k : Code) : k.append .done = k := by
  induction k with
  | done => rfl
  | char c rest ih => rw [append, ih]
  | loop body rest _ ih => rw [append, ih]
  | unclosed rest ih => rw [append, ih]

theorem append_assoc (a b c : Code) : (a.append b).append c = a.append (b.append c) := by
  induction a with
  | done => rfl
  | char _ rest ih => simp only [append, ih]
  | loop _ rest _ ih => simp only [append, ih]
  | unclosed rest ih => simp only [append, ih]

end Code

def Program.code (p : Program) : Code :=
  .ofChars p.chars.toList

end Brainfuck
