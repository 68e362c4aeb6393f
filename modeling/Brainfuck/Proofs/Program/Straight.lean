import Brainfuck.Program.Brackets
import Mathlib.Data.List.Infix

/-!
# Straight code

Characters that neither jump nor print nor read are executed one after another, and what they do to
a tape can be said without a machine: how far they move, and what they add to the cell at each
offset from where they begin. A loop around them ends at the bracket behind them.
-/

namespace Brainfuck

/-- A character that works on the tape alone, or a comment. -/
def IsStraight (c : Char) : Prop :=
  c ∈ ['+', '-', '<', '>'] ∨ isInstruction c = false

def moveOf : Char → Int
  | '>' => 1
  | '<' => -1
  | _ => 0

/-- What a character adds to the active cell. -/
def changeOf : Char → UInt8
  | '+' => 1
  | '-' => -1
  | _ => 0

/-- How far to the right characters move, one after another. -/
def netMove : List Char → Int
  | [] => 0
  | c :: cs => moveOf c + netMove cs

/-- What characters, one after another, add to the cell at this offset from where they begin. -/
def netChange : List Char → Int → UInt8
  | [], _ => 0
  | c :: cs, o => (if o = 0 then changeOf c else 0) + netChange cs (o - moveOf c)

instance (c : Char) : Decidable (IsStraight c) :=
  inferInstanceAs (Decidable (_ ∨ _))

theorem netMove_eq_count (cs : List Char) :
    netMove cs = (cs.count '>' : Int) - cs.count '<' := by
  induction cs with
  | nil => rfl
  | cons c cs ih =>
    rw [netMove, ih]
    by_cases hright : c = '>'
    · subst hright
      simp [moveOf]
      omega
    · by_cases hleft : c = '<'
      · subst hleft
        simp [moveOf]
        omega
      · simp [moveOf, hright, hleft]

namespace Program

variable {p : Program} {i : Nat} {c : Char} {cs ds body : List Char}

/-- A program has these characters from a position on. -/
def HasAt (p : Program) (cs : List Char) (i : Nat) : Prop :=
  cs <+: p.chars.toList.drop i

instance : Decidable (p.HasAt cs i) :=
  inferInstanceAs (Decidable (_ <+: _))

theorem hasAt_cons_iff : p.HasAt (c :: cs) i ↔ p.chars[i]? = some c ∧ p.HasAt cs (i + 1) := by
  rw [HasAt, HasAt, ← Array.getElem?_toList]
  cases h : p.chars.toList[i]? with
  | none =>
    have hnil := List.drop_eq_nil_of_le (List.getElem?_eq_none_iff.1 h)
    rw [hnil]
    simp
  | some d =>
    obtain ⟨hi, rfl⟩ := List.getElem?_eq_some_iff.1 h
    rw [List.drop_eq_getElem_cons hi, List.cons_prefix_cons, Option.some_inj, eq_comm]

theorem hasAt_append_iff :
    p.HasAt (cs ++ ds) i ↔ p.HasAt cs i ∧ p.HasAt ds (i + cs.length) := by
  induction cs generalizing i with
  | nil => simp [HasAt]
  | cons c cs ih =>
    rw [List.cons_append, hasAt_cons_iff, hasAt_cons_iff, ih, and_assoc, List.length_cons,
      Nat.add_right_comm, Nat.add_assoc]

/-! ### The end of a loop -/

theorem depthAfter_of_isStraight (h : IsStraight c) (depth : Nat) : depthAfter depth c = depth := by
  unfold depthAfter
  split
  · exact absurd h (by decide)
  · exact absurd h (by decide)
  · rfl

theorem returnPosition_of_hasAt (hcs : p.HasAt cs i) (hstraight : ∀ c ∈ cs, IsStraight c)
    {depth : Nat} (hdepth : depth ≠ 0) :
    p.returnPosition depth i = p.returnPosition depth (i + cs.length) := by
  induction cs generalizing i with
  | nil => rfl
  | cons c cs ih =>
    obtain ⟨hc, hcs⟩ := hasAt_cons_iff.1 hcs
    obtain ⟨hfirst, hrest⟩ := List.forall_mem_cons.1 hstraight
    rw [returnPosition_of_getElem? hc, depthAfter_of_isStraight hfirst, if_neg hdepth,
      ih hcs hrest, List.length_cons, Nat.add_right_comm, Nat.add_assoc]

theorem skipLoop_of_hasAt (h : p.HasAt ('[' :: body ++ [']']) i)
    (hstraight : ∀ c ∈ body, IsStraight c) : p.skipLoop i = i + body.length + 2 := by
  obtain ⟨hopen, hinner⟩ := hasAt_cons_iff.1 h
  obtain ⟨hbody, hend⟩ := hasAt_append_iff.1 hinner
  obtain ⟨hclose, -⟩ := hasAt_cons_iff.1 hend
  have hstart : p.skipLoop i = p.returnPosition 1 (i + 1) := returnPosition_of_getElem? hopen
  have hstop : p.returnPosition 1 (i + 1 + body.length) = i + 1 + body.length + 1 :=
    returnPosition_of_getElem? hclose
  rw [hstart, returnPosition_of_hasAt hbody hstraight Nat.one_ne_zero, hstop]
  omega

end Program

end Brainfuck
