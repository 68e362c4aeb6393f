import Brainfuck.Program.Basic

/-!
# Brackets

The loops of a program are found in two ways. `skipLoop` scans forward to the end of the loop that
opens at a position, and `openBrackets` scans from the start and keeps the brackets that are still
open. A closing bracket with nothing open closes nothing.
-/

namespace Brainfuck.Program

def depthAfter (depth : Nat) : Char → Nat
  | '[' => depth + 1
  | ']' => depth - 1
  | _ => depth

/-- The first position from `i` on where the depth, counted from `depth`, is back at zero; the
size of the program when it never is. -/
def returnPosition (p : Program) (depth i : Nat) : Nat :=
  if h : i < p.chars.size then
    let depth := depthAfter depth p.chars[i]
    if depth = 0 then i + 1 else returnPosition p depth (i + 1)
  else p.chars.size
termination_by p.chars.size - i

/-- The position past the bracket that closes the one at `start`, or the end of the program when
that one is never closed. -/
def skipLoop (p : Program) (start : Nat) : Nat :=
  p.returnPosition 0 start

def openAfter (stack : List Nat) (i : Nat) : Char → List Nat
  | '[' => i :: stack
  | ']' => stack.tail
  | _ => stack

/-- The positions of the brackets still open before position `n`, innermost first. -/
def openBrackets (p : Program) (n : Nat) : List Nat :=
  (p.chars.toList.take n).zipIdx.foldl (fun stack (c, i) => openAfter stack i c) []

/-- Every opening bracket is closed. -/
def Closed (p : Program) : Prop :=
  p.openBrackets p.size = []

instance (p : Program) : Decidable p.Closed :=
  inferInstanceAs (Decidable (_ = _))

theorem returnPosition_of_getElem? {p : Program} {depth i : Nat} {c : Char}
    (h : p.chars[i]? = some c) :
    p.returnPosition depth i =
      if depthAfter depth c = 0 then i + 1
      else p.returnPosition (depthAfter depth c) (i + 1) := by
  obtain ⟨hi, rfl⟩ := Array.getElem?_eq_some_iff.1 h
  rw [returnPosition, dif_pos hi]

theorem returnPosition_of_size_le {p : Program} {depth i : Nat} (h : p.size ≤ i) :
    p.returnPosition depth i = p.size := by
  have hi : ¬ i < p.chars.size := Nat.not_lt.2 h
  rw [returnPosition, dif_neg hi]
  rfl

theorem length_openAfter (stack : List Nat) (i : Nat) (c : Char) :
    (openAfter stack i c).length = depthAfter stack.length c := by
  unfold openAfter depthAfter
  split <;> simp

@[simp] theorem openBrackets_zero (p : Program) : p.openBrackets 0 = [] := by
  simp [openBrackets]

theorem openBrackets_succ (p : Program) (n : Nat) (h : n < p.chars.size) :
    p.openBrackets (n + 1) = openAfter (p.openBrackets n) n p.chars[n] := by
  have hn : n < p.chars.toList.length := by simpa using h
  simp only [openBrackets, List.take_succ_eq_append_getElem hn, List.zipIdx_append,
    List.foldl_append, List.length_take, Nat.min_eq_left (Nat.le_of_lt hn)]
  simp

end Brainfuck.Program
