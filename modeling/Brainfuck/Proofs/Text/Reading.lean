import Brainfuck.Program.ListingReader
import Mathlib.Data.List.DropRight

/-!
# Reading texts back

A text that was put together from lines, from columns or from the digits of a number is taken apart
into what it was made of. Lines are cut after each line end, columns by their width, and the zeros
or blanks in front of a number do not count.
-/

namespace Brainfuck.Text

variable {α : Type} {c : Char} {line rest last cs : List Char} {lines : List (List Char)}
  {width n : Nat}

/-! ### Lines -/

theorem cutLines_lineFeed (rest : List Char) :
    cutLines ('\n' :: rest) = ([] :: (cutLines rest).1, (cutLines rest).2) := rfl

theorem cutLines_cons (hc : c ≠ '\n') (h : cutLines rest = (line :: lines, last)) :
    cutLines (c :: rest) = ((c :: line) :: lines, last) := by
  simp only [cutLines, h]

theorem cutLines_append_lineFeed (h : '\n' ∉ line) :
    cutLines (line ++ '\n' :: rest) = (line :: (cutLines rest).1, (cutLines rest).2) := by
  induction line with
  | nil => exact cutLines_lineFeed rest
  | cons c line ih =>
    have hc : c ≠ '\n' := fun heq => h (heq ▸ List.mem_cons_self)
    have hline : '\n' ∉ line := fun hmem => h (List.mem_cons_of_mem c hmem)
    exact cutLines_cons hc (ih hline)

theorem cutLines_flatMap (h : ∀ line ∈ lines, '\n' ∉ line) :
    cutLines (lines.flatMap (· ++ ['\n'])) = (lines, []) := by
  induction lines with
  | nil => rfl
  | cons line lines ih =>
    have hline : '\n' ∉ line := h line List.mem_cons_self
    have hlines := ih fun l hl => h l (List.mem_cons_of_mem line hl)
    rw [List.flatMap_cons, List.append_assoc, List.singleton_append,
      cutLines_append_lineFeed hline, hlines]

/-! ### Numbers -/

/-- The number that digits behind blanks stand for. -/
def rightAligned? (column : List Char) : Option Nat :=
  let digits := column.dropWhile (· = ' ')
  if digits ≠ [] ∧ digits.all Char.isDigit then some (Nat.ofDigitChars 10 digits 0) else none

theorem toList_toString (n : Nat) : (toString n).toList = Nat.toDigits 10 n :=
  Nat.toList_repr

theorem isDigit_of_mem_toDigits (h : c ∈ Nat.toDigits 10 n) : c.isDigit = true :=
  Nat.isDigit_of_mem_toDigits (by decide) (by decide) h

theorem isDigit_of_mem_leftpad (h : c ∈ (Nat.toDigits 10 n).leftpad width '0') :
    c.isDigit = true := by
  rcases List.mem_append.1 h with h | h
  · rw [List.eq_of_mem_replicate h]
    rfl
  · exact isDigit_of_mem_toDigits h

theorem ofDigitChars_leftpad (width n : Nat) :
    Nat.ofDigitChars 10 ((Nat.toDigits 10 n).leftpad width '0') 0 = n := by
  rw [List.leftpad, Nat.ofDigitChars_append, Nat.ofDigitChars_replicate_zero, Nat.mul_zero,
    Nat.ofDigitChars_ten_toDigits]

theorem rightAligned?_leftpad (width n : Nat) :
    rightAligned? ((toString n).toList.leftpad width ' ') = some n := by
  have hblank : ∀ c ∈ List.replicate (width - (Nat.toDigits 10 n).length) ' ',
      decide (c = ' ') = true := by
    intro c hc
    exact decide_eq_true (List.eq_of_mem_replicate hc)
  have hdigits : (Nat.toDigits 10 n).dropWhile (· = ' ') = Nat.toDigits 10 n := by
    apply List.dropWhile_eq_self_iff.2
    intro hpos hc
    have hdigit := isDigit_of_mem_toDigits (List.getElem_mem hpos)
    rw [of_decide_eq_true hc] at hdigit
    exact absurd hdigit (by decide)
  have hall : (Nat.toDigits 10 n).all Char.isDigit = true := by
    apply List.all_eq_true.2
    intro c hc
    exact isDigit_of_mem_toDigits hc
  rw [toList_toString, List.leftpad, rightAligned?, List.dropWhile_append_of_pos hblank, hdigits]
  exact (if_pos ⟨Nat.toDigits_ne_nil, hall⟩).trans (congrArg some Nat.ofDigitChars_ten_toDigits)

/-! ### Columns -/

/-- The first columns of a row, each of this width. -/
def columns (width : Nat) : Nat → List Char → List (List Char)
  | 0, _ => []
  | n + 1, row => row.take width :: columns width n (row.drop width)

theorem length_flatMap_of_length {f : α → List Char} {cells : List α}
    (h : ∀ c ∈ cells, (f c).length = width) : (cells.flatMap f).length = width * cells.length := by
  induction cells with
  | nil => rfl
  | cons c cells ih =>
    have hcells := ih fun d hd => h d (List.mem_cons_of_mem c hd)
    rw [List.flatMap_cons, List.length_append, h c List.mem_cons_self, hcells, List.length_cons,
      Nat.mul_succ, Nat.add_comm]

theorem columns_flatMap {f : α → List Char} {cells : List α}
    (h : ∀ c ∈ cells, (f c).length = width) :
    columns width cells.length (cells.flatMap f) = cells.map f := by
  induction cells with
  | nil => rfl
  | cons c cells ih =>
    have hc := h c List.mem_cons_self
    have hcells := ih fun d hd => h d (List.mem_cons_of_mem c hd)
    rw [List.length_cons, columns, List.flatMap_cons, List.take_left' hc, List.drop_left' hc,
      hcells, List.map_cons]

/-- The place of a character in a row says which column it is in and where. -/
theorem getElem?_flatMap_of_length {f : α → List Char} {cells : List α}
    (h : ∀ c ∈ cells, (f c).length = width) {k i : Nat} (hi : i < width) :
    (cells.flatMap f)[width * k + i]? = cells[k]?.bind fun c => (f c)[i]? := by
  induction cells generalizing k with
  | nil => rfl
  | cons c cells ih =>
    have hc := h c List.mem_cons_self
    rw [List.flatMap_cons]
    cases k with
    | zero =>
      rw [Nat.mul_zero, Nat.zero_add, List.getElem?_append_left (by omega)]
      rfl
    | succ k =>
      have hpos : width * (k + 1) + i = (f c).length + (width * k + i) := by
        rw [hc, Nat.mul_succ]
        omega
      rw [hpos, List.getElem?_append_right (Nat.le_add_right _ _), Nat.add_sub_cancel_left,
        ih fun d hd => h d (List.mem_cons_of_mem c hd)]
      rfl

/-! ### Blanks at the end -/

theorem toList_trimEnd (s : String) : (trimEnd s).toList = s.toList.rdropWhile (· = ' ') :=
  String.toList_ofList

theorem rightpad_rdropWhile (cs : List Char) :
    (cs.rdropWhile (· = ' ')).rightpad cs.length ' ' = cs := by
  induction cs using List.reverseRecOn with
  | nil => rfl
  | append_singleton cs c ih =>
    by_cases hc : c = ' '
    · subst hc
      have hle : (cs.rdropWhile (· = ' ')).length ≤ cs.length :=
        (List.rdropWhile_prefix (· = ' ') cs).length_le
      rw [List.rdropWhile_concat_pos _ _ _ (by decide), List.rightpad, List.length_append,
        List.length_singleton, Nat.succ_sub hle, List.replicate_succ', ← List.append_assoc]
      exact congrArg (· ++ [' ']) ih
    · rw [List.rdropWhile_concat_neg _ _ _ (by simpa using hc), List.rightpad, Nat.sub_self,
        List.replicate_zero, List.append_nil]

theorem count_rdropWhile (h : c ≠ ' ') (cs : List Char) :
    (cs.rdropWhile (· = ' ')).count c = cs.count c := by
  have hpad := congrArg (List.count c) (rightpad_rdropWhile cs)
  rw [List.rightpad, List.count_append, List.count_replicate,
    if_neg (by simpa using h.symm)] at hpad
  exact hpad

theorem getLast?_rdropWhile_ne (cs : List Char) :
    (cs.rdropWhile (· = ' ')).getLast? ≠ some ' ' := by
  intro h
  obtain ⟨hne, hlast⟩ := List.mem_getLast?_eq_getLast h
  have hkept := List.rdropWhile_last_not (· = ' ') cs hne
  rw [← hlast] at hkept
  exact hkept (by decide)

end Brainfuck.Text
