import Brainfuck.Proofs.Program.Nesting

/-!
# Programs one after another

In two programs one after another the first one is where it was, and the second one is further on by
the size of the first. A scan forward in the second one finds what it found there, and so does a scan
in the first one from a bracket that is closed there.
-/

namespace Brainfuck.Program

instance : Append Program where
  append p q := ⟨p.chars ++ q.chars⟩

variable {p q : Program} {i n : Nat}

@[simp] theorem size_append (p q : Program) : (p ++ q).size = p.size + q.size :=
  Array.size_append

theorem getElem?_append_left (h : i < p.size) : (p ++ q).chars[i]? = p.chars[i]? :=
  Array.getElem?_append_left h

theorem getElem?_append_right (p q : Program) (i : Nat) :
    (p ++ q).chars[p.size + i]? = q.chars[i]? := by
  have h : (p.chars ++ q.chars)[p.size + i]? = q.chars[p.size + i - p.size]? :=
    Array.getElem?_append_right (Nat.le_add_right _ _)
  rwa [Nat.add_sub_cancel_left] at h

/-! ### The second program -/

theorem returnPosition_append_right (p q : Program) (depth i : Nat) :
    (p ++ q).returnPosition depth (p.size + i) = p.size + q.returnPosition depth i := by
  induction hm : q.size - i generalizing i depth with
  | zero =>
    have hi : q.size ≤ i := by omega
    have hpq : (p ++ q).size ≤ p.size + i := by
      rw [size_append]
      omega
    rw [returnPosition_of_size_le hi, returnPosition_of_size_le hpq, size_append]
  | succ n ih =>
    have hi : i < q.chars.size := Nat.lt_of_sub_eq_succ hm
    have hget : q.chars[i]? = some q.chars[i] := Array.getElem?_eq_getElem hi
    have hget' : (p ++ q).chars[p.size + i]? = some q.chars[i] := by
      rw [getElem?_append_right, hget]
    rw [returnPosition_of_getElem? hget, returnPosition_of_getElem? hget']
    by_cases hd : depthAfter depth q.chars[i] = 0
    · rw [if_pos hd, if_pos hd, Nat.add_assoc]
    · rw [if_neg hd, if_neg hd, Nat.add_assoc]
      apply ih
      omega

theorem skipLoop_append_right (p q : Program) (i : Nat) :
    (p ++ q).skipLoop (p.size + i) = p.size + q.skipLoop i :=
  returnPosition_append_right p q 0 i

/-! ### The first program -/

theorem openBrackets_append_left (h : n ≤ p.size) :
    (p ++ q).openBrackets n = p.openBrackets n := by
  have htake : (p ++ q).chars.toList.take n = p.chars.toList.take n := by
    show (p.chars ++ q.chars).toList.take n = _
    rw [Array.toList_append]
    exact List.take_append_of_le_length h
  rw [openBrackets, openBrackets, htake]

theorem skipLoop_append_left (hp : p.Closed) (h : p.chars[i]? = some '[') :
    (p ++ q).skipLoop i = p.skipLoop i := by
  obtain ⟨hi, -⟩ := Array.getElem?_eq_some_iff.1 h
  rcases skipLoop_cases h with ⟨k, -, hk, hopen, hskip, -⟩ | ⟨-, hopen⟩
  · obtain ⟨hlt, -⟩ := Array.getElem?_eq_some_iff.1 hk
    have hk' : (p ++ q).chars[k]? = some ']' := by
      rw [getElem?_append_left hlt, hk]
    have hopen' : (p ++ q).openBrackets k = i :: p.openBrackets i := by
      rw [openBrackets_append_left (Nat.le_of_lt hlt), hopen]
    rw [skipLoop_of_openBrackets hk' hopen', hskip]
  · have hend := (hopen p.size hi (Nat.le_refl _)).length_le
    rw [show p.openBrackets p.size = [] from hp] at hend
    simp at hend

end Brainfuck.Program
