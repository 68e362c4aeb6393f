import Brainfuck.Proofs.Machine.Sound
import Brainfuck.Proofs.Text.Reading
import Brainfuck.Render

/-!
# The picture of a tape

Three rows of columns show a tape, and all that they show can be read off them again: the values,
what characters they stand for, which cell is active and where the origin is. No byte fills its
column, so columns stay apart, and the blanks that the last row lacks at its end can be put back.
-/

namespace Brainfuck.Machine

variable {m : Machine} {c : CellId} {ch : Char} {v : UInt8} {numbers characters marks : List Char}

/-- Three rows show a tape in columns of four characters. In the last row, blanks that were left
out at the end count as there. -/
structure Pictures (m : Machine) (numbers characters marks : List Char) : Prop where
  length_numbers : numbers.length = 4 * m.tape.size
  length_characters : characters.length = 4 * m.tape.size
  values : (Text.columns 4 m.tape.size numbers).map Text.rightAligned? =
    m.tape.cells.map fun c => some (m.tape.value c).toNat
  printables : Text.columns 4 m.tape.size characters =
    m.tape.cells.map fun c => [' ', ' ', ' ', printable (m.tape.value c)]
  length_marks : marks.length ≤ 4 * m.tape.size
  mark_at : ∀ column < m.tape.size, ∀ place < 4,
    (marks.rightpad (4 * m.tape.size) ' ')[4 * column + place]? = some (
      if place ≠ 3 then ' '
      else if column = m.activeIndex then if m.active = Tape.origin then '@' else '^'
      else if column = m.tape.indexOf Tape.origin then '*' else ' ')
  active_column : m.tape.cells[m.activeIndex]? = some m.active
  origin_column : m.tape.cells[m.tape.indexOf Tape.origin]? = some Tape.origin
  count_both : marks.count '@' = if m.active = Tape.origin then 1 else 0
  count_active : marks.count '^' = if m.active = Tape.origin then 0 else 1
  count_origin : marks.count '*' = if m.active = Tape.origin then 0 else 1
  trimmed : marks.getLast? ≠ some ' '

/-! ### Columns -/

def numberColumn (m : Machine) (c : CellId) : List Char :=
  (toString (m.tape.value c).toNat).toList.leftpad columnWidth ' '

def characterColumn (m : Machine) (c : CellId) : List Char :=
  [' ', ' ', ' ', printable (m.tape.value c)]

/-- What the last row shows of a cell, before blanks are left out at its end. -/
def markColumn (m : Machine) (c : CellId) : List Char := [' ', ' ', ' ', m.mark c]

theorem length_numberColumn (m : Machine) (c : CellId) : (m.numberColumn c).length = 4 := by
  have hdigits : (toString (m.tape.value c).toNat).toList.length ≤ 3 := by
    rw [Text.toList_toString]
    apply (Nat.length_toDigits_le_iff (by decide) (by decide)).2
    exact Nat.lt_of_lt_of_le (m.tape.value c).toNat_lt (by decide)
  rw [numberColumn, List.length_leftpad, columnWidth]
  omega

theorem toList_renderTape (m : Machine) :
    m.renderTape.toList = [m.tape.cells.flatMap m.numberColumn,
      m.tape.cells.flatMap m.characterColumn,
      (m.tape.cells.flatMap m.markColumn).rdropWhile (· = ' ')].flatMap (· ++ ['\n']) := by
  have hnumber : m.numberColumn =
    fun c => (toString (m.tape.value c).toNat).toList.leftpad columnWidth ' ' := rfl
  have hcharacter : m.characterColumn =
    fun c => [printable (m.tape.value c)].leftpad columnWidth ' ' := rfl
  have hmark : m.markColumn = fun c => [m.mark c].leftpad columnWidth ' ' := rfl
  rw [hnumber, hcharacter, hmark]
  simp [renderTape, Text.toList_trimEnd, List.flatMap_map]

/-! ### Lines -/

theorem lineFeed_notMem_numberColumn (m : Machine) (c : CellId) : '\n' ∉ m.numberColumn c := by
  intro hmem
  rw [numberColumn, Text.toList_toString] at hmem
  rcases List.mem_append.1 hmem with hblank | hdigit
  · exact absurd (List.eq_of_mem_replicate hblank) (by decide)
  · exact absurd (Text.isDigit_of_mem_toDigits hdigit) (by decide)

theorem lineFeed_ne_printable (v : UInt8) : '\n' ≠ printable v := by
  rw [printable]
  split
  · rename_i hplain
    intro heq
    rw [← heq] at hplain
    exact absurd hplain (by decide)
  · decide

theorem lineFeed_notMem_characterColumn (m : Machine) (c : CellId) :
    '\n' ∉ m.characterColumn c := by
  simp [characterColumn, lineFeed_ne_printable]

theorem lineFeed_notMem_markColumn (m : Machine) (c : CellId) : '\n' ∉ m.markColumn c := by
  have hmark : '\n' ≠ m.mark c := by
    rw [mark]
    split <;> decide
  simp [markColumn, hmark]

theorem cutLines_renderTape (m : Machine) :
    Text.cutLines m.renderTape.toList = ([m.tape.cells.flatMap m.numberColumn,
      m.tape.cells.flatMap m.characterColumn,
      (m.tape.cells.flatMap m.markColumn).rdropWhile (· = ' ')], []) := by
  rw [toList_renderTape]
  apply Text.cutLines_flatMap
  intro line hline hmem
  have hrow {column : CellId → List Char} (h : ∀ c, '\n' ∉ column c) :
      '\n' ∉ m.tape.cells.flatMap column := by
    intro hmem
    obtain ⟨c, -, hc⟩ := List.mem_flatMap.1 hmem
    exact h c hc
  simp only [List.mem_cons, List.not_mem_nil, or_false] at hline
  rcases hline with rfl | rfl | rfl
  · exact hrow m.lineFeed_notMem_numberColumn hmem
  · exact hrow m.lineFeed_notMem_characterColumn hmem
  · exact hrow m.lineFeed_notMem_markColumn ((List.rdropWhile_prefix _ _).mem hmem)

/-! ### Marks -/

theorem mark_eq (m : Machine) (c : CellId) :
    m.mark c = if c = m.active then if m.active = Tape.origin then '@' else '^'
      else if c = Tape.origin then '*' else ' ' := by
  rw [mark]
  by_cases hactive : c = m.active <;> by_cases horigin : c = Tape.origin <;> grind

theorem mark_eq_both_iff : m.mark c = '@' ↔ m.active = Tape.origin ∧ c = Tape.origin := by
  grind [mark_eq]

theorem mark_eq_active_iff : m.mark c = '^' ↔ m.active ≠ Tape.origin ∧ c = m.active := by
  grind [mark_eq]

theorem mark_eq_origin_iff : m.mark c = '*' ↔ m.active ≠ Tape.origin ∧ c = Tape.origin := by
  grind [mark_eq]

theorem count_marks (m : Machine) (hch : ch ≠ ' ') (cells : List CellId) :
    (cells.flatMap m.markColumn).count ch = cells.countP (m.mark · = ch) := by
  induction cells with
  | nil => rfl
  | cons c cells ih =>
    have hcolumn : (m.markColumn c).count ch = if m.mark c = ch then 1 else 0 := by
      simp [markColumn, List.count_cons, hch.symm]
    rw [List.flatMap_cons, List.count_append, ih, hcolumn, List.countP_cons, Nat.add_comm]
    simp

theorem count_marks_eq {marked : Prop} [Decidable marked] (h : m.tape.Linked) (hc : c ∈ m.tape)
    (hch : ch ≠ ' ') (hmark : ∀ d, m.mark d = ch ↔ marked ∧ d = c) :
    (m.tape.cells.flatMap m.markColumn).count ch = if marked then 1 else 0 := by
  rw [count_marks m hch]
  split
  · rename_i hmarked
    have honce := List.count_eq_one_of_mem h.nodup (h.mem_cells.2 hc)
    rw [← honce, List.count_eq_countP]
    apply List.countP_congr
    intro d _
    simp [hmark d, hmarked]
  · rename_i hmarked
    rw [List.countP_eq_zero]
    intro d _
    simp [hmark d, hmarked]

/-! ### The three rows -/

theorem getElem?_marks (h : m.tape.Linked) (ha : m.active ∈ m.tape) {column place : Nat}
    (hcolumn : column < m.tape.size) (hplace : place < 4) :
    (m.tape.cells.flatMap m.markColumn)[4 * column + place]? = some (
      if place ≠ 3 then ' '
      else if column = m.activeIndex then if m.active = Tape.origin then '@' else '^'
      else if column = m.tape.indexOf Tape.origin then '*' else ' ') := by
  have hlength : ∀ c ∈ m.tape.cells, (m.markColumn c).length = 4 := fun c _ => rfl
  have hsize : column < m.tape.cells.length := Tape.IsRow.length h ▸ hcolumn
  have hcell := List.getElem?_eq_getElem hsize
  have hindex {c : CellId} (hc : c ∈ m.tape) :
      column = m.tape.indexOf c ↔ m.tape.cells[column] = c := by
    have hiff := h.getElem?_cells_eq_some_iff (c := c) (i := column)
    rw [hcell, Option.some_inj, and_iff_right hc] at hiff
    rw [hiff, eq_comm]
  rw [Text.getElem?_flatMap_of_length hlength hplace, hcell, Option.bind_some]
  simp only [activeIndex, hindex ha, hindex h.origin_mem, ← mark_eq]
  match place, hplace with
  | 0, _ | 1, _ | 2, _ | 3, _ => rfl

theorem pictures_renderTape (h : m.tape.Linked) (ha : m.active ∈ m.tape) :
    m.Pictures (m.tape.cells.flatMap m.numberColumn) (m.tape.cells.flatMap m.characterColumn)
      ((m.tape.cells.flatMap m.markColumn).rdropWhile (· = ' ')) := by
  have hsize : m.tape.cells.length = m.tape.size := Tape.IsRow.length h
  have hlength (column : CellId → List Char) (hcolumn : ∀ c, (column c).length = 4) :
      (m.tape.cells.flatMap column).length = 4 * m.tape.size := by
    rw [← hsize]
    exact Text.length_flatMap_of_length fun c _ => hcolumn c
  have hcolumns {column : CellId → List Char} (hcolumn : ∀ c, (column c).length = 4) :
      Text.columns 4 m.tape.size (m.tape.cells.flatMap column) = m.tape.cells.map column := by
    rw [← hsize]
    exact Text.columns_flatMap fun c _ => hcolumn c
  constructor
  · exact hlength m.numberColumn m.length_numberColumn
  · exact hlength m.characterColumn fun c => rfl
  · rw [hcolumns m.length_numberColumn, List.map_map]
    apply List.map_congr_left
    intro c _
    rw [Function.comp_apply, numberColumn, Text.rightAligned?_leftpad]
  · exact hcolumns fun c => rfl
  · rw [← hlength m.markColumn fun c => rfl]
    exact (List.rdropWhile_prefix _ _).length_le
  · intro column hcolumn place hplace
    rw [← hlength m.markColumn fun c => rfl, Text.rightpad_rdropWhile]
    exact getElem?_marks h ha hcolumn hplace
  · exact h.getElem?_cells_eq_some_iff.2 ⟨ha, rfl⟩
  · exact h.getElem?_cells_eq_some_iff.2 ⟨h.origin_mem, rfl⟩
  · rw [Text.count_rdropWhile (by decide)]
    exact count_marks_eq h h.origin_mem (by decide) fun _ => mark_eq_both_iff
  · rw [Text.count_rdropWhile (by decide), ← ite_not]
    exact count_marks_eq h ha (by decide) fun _ => mark_eq_active_iff
  · rw [Text.count_rdropWhile (by decide), ← ite_not]
    exact count_marks_eq h h.origin_mem (by decide) fun _ => mark_eq_origin_iff
  · exact Text.getLast?_rdropWhile_ne _

/-- The picture of the tape of any machine that can be reached is three lines, and they show the
values of its cells from left to right, the characters that these stand for, and where the active
cell and the origin are. -/
theorem pictures_of_reachable {m : Machine} (h : m.Reachable) :
    ∃ numbers characters marks,
      Text.cutLines m.renderTape.toList = ([numbers, characters, marks], []) ∧
        m.Pictures numbers characters marks := by
  obtain ⟨hl, ha⟩ := h.linked
  exact ⟨_, _, _, m.cutLines_renderTape, pictures_renderTape hl ha⟩

/-- A letter was read into the origin, and the active cell is a new one to the left of it. -/
theorem pictures_of_reachable_left :
    let m := ((load ⟨#[',', '<']⟩).supply "A").step.2.step.2
    m.Pictures "   0  65".toList "   ·   A".toList "   ^   *".toList := by
  intro m
  have hm : m.Reachable := .step (.step (.supply "A" (.load _)))
  obtain ⟨numbers, characters, marks, hlines, hpictures⟩ := pictures_of_reachable hm
  have hshown : Text.cutLines m.renderTape.toList =
    (["   0  65".toList, "   ·   A".toList, "   ^   *".toList], []) := by decide +kernel
  simp only [hshown, Prod.mk.injEq, List.cons.injEq] at hlines
  obtain ⟨⟨rfl, rfl, rfl, -⟩, -⟩ := hlines
  exact hpictures

end Brainfuck.Machine
