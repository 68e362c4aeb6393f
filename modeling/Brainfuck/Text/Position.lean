/-!
# Positions in a text

A position counts the bytes of a text's UTF-8 form, and is proper when a character starts there or
the text ends there. `from?_eq_some_iff` says what the rest of a text from a position is.
-/

namespace Brainfuck.Text

/-- The text from a position on, `none` when the position is past the end or inside a
character. -/
def from? (s : String) (p : String.Pos.Raw) : Option String :=
  if h : p.IsValid s then some (s.sliceFrom ⟨p, h⟩).copy else none

def lowBytes (s : String) : List UInt8 :=
  s.toList.map fun c => c.val.toUInt8

theorem from?_eq_some_iff {s t : String} {p : String.Pos.Raw} :
    from? s p = some t ↔ ∃ u, s = u ++ t ∧ p = u.rawEndPos := by
  unfold from?
  split
  · next h =>
    have hs := (⟨p, h⟩ : s.Pos).splits
    rw [Option.some.injEq]
    constructor
    · rintro rfl
      exact ⟨_, hs.eq_append, hs.offset_eq_rawEndPos⟩
    · rintro ⟨u, hu, hp⟩
      exact hs.eq_right ⟨hu, hp⟩
  · next h =>
    simp only [reduceCtorEq, false_iff]
    rintro ⟨u, hu, hp⟩
    exact h (String.Pos.Raw.isValid_iff_exists_append.2 ⟨u, t, hu, hp⟩)

@[simp] theorem from?_zero (s : String) : from? s 0 = some s :=
  from?_eq_some_iff.2 ⟨"", by simp, rfl⟩

@[simp] theorem from?_rawEndPos (s : String) : from? s s.rawEndPos = some "" :=
  from?_eq_some_iff.2 ⟨s, String.append_empty.symm, rfl⟩

end Brainfuck.Text
