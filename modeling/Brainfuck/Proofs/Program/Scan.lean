import Brainfuck.Program.Brackets

/-!
# The depth of a scan

The scan for the end of a loop counts the brackets that are open. A scan that gives up when it would
count below zero never does so from an opening bracket: it stops as soon as it is back at zero, and
until then there is a bracket to close.
-/

namespace Brainfuck.Program

variable {p : Program} {depth i s : Nat}

/-- The bracket depth after one more character, none when that closes what is not open. -/
def depthAfter? (depth : Nat) (c : Char) : Option Nat :=
  if c = ']' ∧ depth = 0 then none else some (depthAfter depth c)

/-- The scan of `returnPosition` by a counter that must not go below zero. -/
def returnPosition? (p : Program) (depth i : Nat) : Option Nat :=
  if h : i < p.chars.size then
    match depthAfter? depth p.chars[i] with
    | none => none
    | some 0 => some (i + 1)
    | some (depth + 1) => returnPosition? p (depth + 1) (i + 1)
  else some p.chars.size
termination_by p.chars.size - i

def skipLoop? (p : Program) (start : Nat) : Option Nat :=
  p.returnPosition? 0 start

theorem depthAfter?_of_pos {c : Char} (h : 0 < depth) :
    depthAfter? depth c = some (depthAfter depth c) := by
  apply if_neg
  omega

theorem returnPosition?_of_pos (p : Program) (i : Nat) (h : 0 < depth) :
    p.returnPosition? depth i = some (p.returnPosition depth i) := by
  induction hm : p.size - i generalizing i depth with
  | zero =>
    have hi : p.size ≤ i := by omega
    have hlt : ¬ i < p.chars.size := Nat.not_lt.2 hi
    rw [returnPosition?, dif_neg hlt, returnPosition_of_size_le hi]
    rfl
  | succ n ih =>
    have hi : i < p.chars.size := Nat.lt_of_sub_eq_succ hm
    rw [returnPosition?, dif_pos hi, depthAfter?_of_pos h,
      returnPosition_of_getElem? (Array.getElem?_eq_getElem hi)]
    cases hd : depthAfter depth p.chars[i] with
    | zero => rfl
    | succ d =>
      show p.returnPosition? (d + 1) (i + 1) = _
      rw [ih (i + 1) (Nat.succ_pos d) (by omega), if_neg (Nat.succ_ne_zero d)]

theorem skipLoop?_of_open (h : p.chars[s]? = some '[') : p.skipLoop? s = some (p.skipLoop s) := by
  obtain ⟨hlt, hc⟩ := Array.getElem?_eq_some_iff.1 h
  rw [skipLoop?, skipLoop, returnPosition?, dif_pos hlt, returnPosition_of_getElem? h, hc]
  exact returnPosition?_of_pos p (s + 1) Nat.one_pos

end Brainfuck.Program
