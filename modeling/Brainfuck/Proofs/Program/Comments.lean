import Brainfuck.Program.Brackets

/-!
# Positions without comments

Removing the comments of a program moves what is left of it. A position goes to the number of
instructions before it, so that each instruction meets itself again, and the scan forward from a
bracket ends where it ended before.
-/

namespace Brainfuck.Program

variable {p : Program} {c : Char} {i depth : Nat}

def instructionsBefore (p : Program) (i : Nat) : Nat :=
  (p.chars.toList.take i).countP isInstruction

@[simp] theorem instructionsBefore_zero (p : Program) : p.instructionsBefore 0 = 0 := rfl

theorem instructionsBefore_of_size_le (h : p.size ≤ i) :
    p.instructionsBefore i = p.withoutComments.size := by
  have hall : p.chars.toList.take i = p.chars.toList := List.take_of_length_le h
  rw [instructionsBefore, hall, List.countP_eq_length_filter, withoutComments, size,
    ← Array.length_toList, Array.toList_filter]

theorem instructionsBefore_succ (h : p.chars[i]? = some c) :
    p.instructionsBefore (i + 1) =
      p.instructionsBefore i + if isInstruction c = true then 1 else 0 := by
  have hlist : p.chars.toList[i]? = some c := by rw [Array.getElem?_toList, h]
  rw [instructionsBefore, List.take_add_one, hlist, List.countP_append, instructionsBefore]
  exact congrArg _ List.countP_singleton

theorem instructionsBefore_succ_of_comment (h : p.chars[i]? = some c)
    (hc : isInstruction c = false) : p.instructionsBefore (i + 1) = p.instructionsBefore i := by
  rw [instructionsBefore_succ h, hc]
  rfl

theorem instructionsBefore_succ_of_instruction (h : p.chars[i]? = some c)
    (hc : isInstruction c = true) : p.instructionsBefore (i + 1) = p.instructionsBefore i + 1 := by
  rw [instructionsBefore_succ h, if_pos hc]

theorem getElem?_withoutComments (h : p.chars[i]? = some c) (hc : isInstruction c = true) :
    p.withoutComments.chars[p.instructionsBefore i]? = some c := by
  have hlist : p.chars.toList[i]? = some c := by rw [Array.getElem?_toList, h]
  obtain ⟨hi, rfl⟩ := List.getElem?_eq_some_iff.1 hlist
  have hsplit : p.chars.toList.filter isInstruction =
      (p.chars.toList.take i).filter isInstruction ++
        p.chars.toList[i] :: (p.chars.toList.drop (i + 1)).filter isInstruction := by
    rw [← List.filter_cons_of_pos hc, ← List.drop_eq_getElem_cons hi, ← List.filter_append,
      List.take_append_drop]
  rw [withoutComments, ← Array.getElem?_toList, Array.toList_filter, hsplit, instructionsBefore,
    List.countP_eq_length_filter, List.getElem?_append_right (Nat.le_refl _), Nat.sub_self]
  rfl

/-! ### The scan forward -/

theorem depthAfter_of_comment (hc : isInstruction c = false) : depthAfter depth c = depth := by
  unfold depthAfter
  split
  · exact absurd hc (by decide)
  · exact absurd hc (by decide)
  · rfl

theorem returnPosition_withoutComments (i : Nat) (h : 0 < depth) :
    p.withoutComments.returnPosition depth (p.instructionsBefore i) =
      p.instructionsBefore (p.returnPosition depth i) := by
  induction hm : p.size - i generalizing i depth with
  | zero =>
    have hi : p.size ≤ i := by omega
    rw [returnPosition_of_size_le hi, instructionsBefore_of_size_le hi,
      instructionsBefore_of_size_le (Nat.le_refl _), returnPosition_of_size_le (Nat.le_refl _)]
  | succ n ih =>
    have hi : i < p.chars.size := by
      have hsize : p.size = p.chars.size := rfl
      omega
    have hget : p.chars[i]? = some p.chars[i] := Array.getElem?_eq_getElem hi
    cases hc : isInstruction p.chars[i] with
    | false =>
      rw [returnPosition_of_getElem? hget, depthAfter_of_comment hc, if_neg (by omega),
        ← ih (i + 1) h (by omega), instructionsBefore_succ_of_comment hget hc]
    | true =>
      have hnext := instructionsBefore_succ_of_instruction hget hc
      rw [returnPosition_of_getElem? hget,
        returnPosition_of_getElem? (getElem?_withoutComments hget hc)]
      by_cases hd : depthAfter depth p.chars[i] = 0
      · rw [if_pos hd, if_pos hd, hnext]
      · rw [if_neg hd, if_neg hd, ← ih (i + 1) (by omega) (by omega), hnext]

theorem skipLoop_withoutComments (h : p.chars[i]? = some '[') :
    p.withoutComments.skipLoop (p.instructionsBefore i) =
      p.instructionsBefore (p.skipLoop i) := by
  have hc : isInstruction '[' = true := rfl
  have hopen : depthAfter 0 '[' = 1 := rfl
  rw [skipLoop, skipLoop, returnPosition_of_getElem? h,
    returnPosition_of_getElem? (getElem?_withoutComments h hc), hopen, if_neg Nat.one_ne_zero,
    if_neg Nat.one_ne_zero, ← instructionsBefore_succ_of_instruction h hc]
  exact returnPosition_withoutComments (i + 1) Nat.one_pos

end Brainfuck.Program
