/-!
# Tapes

A tape is a row of byte cells that is as long as it has been walked: going past either end adds a
cell with value zero there. Cells are kept in the order in which they were added and linked to
their neighbors, so a handle stays good for as long as its tape is worked on. The lemmas say what
each operation does to values and links; the order from left to right is read off the links.
-/

namespace Brainfuck

/-- A handle of a tape cell, numbered in the order in which the cells were added. -/
structure CellId where
  serial : Nat
deriving DecidableEq, Repr, Inhabited

instance : Ord CellId where
  compare a b := compare a.serial b.serial

/-- A byte and the cells to both sides of it, where there are any. -/
structure Cell where
  value : UInt8 := 0
  left : Option CellId := none
  right : Option CellId := none
deriving DecidableEq, Repr, Inhabited

/-- Linked cells by serial, and the one at the left end. -/
structure Tape where
  arena : Array Cell
  leftmost : CellId
deriving DecidableEq, Repr

namespace Tape

/-- The cell where every tape begins. -/
def origin : CellId := ⟨0⟩

/-- A tape of its origin alone. -/
def fresh : Tape := ⟨#[{}], origin⟩

instance : Inhabited Tape := ⟨fresh⟩

def size (t : Tape) : Nat := t.arena.size

instance : Membership CellId Tape where
  mem t c := c.serial < t.size

instance (c : CellId) (t : Tape) : Decidable (c ∈ t) :=
  inferInstanceAs (Decidable (c.serial < t.size))

def cell? (t : Tape) (c : CellId) : Option Cell := t.arena[c.serial]?

/-- The value of a cell, zero for a cell that the tape does not have. -/
def value (t : Tape) (c : CellId) : UInt8 := ((t.cell? c).map Cell.value).getD 0

def right? (t : Tape) (c : CellId) : Option CellId := (t.cell? c).bind Cell.right

def left? (t : Tape) (c : CellId) : Option CellId := (t.cell? c).bind Cell.left

/-- Change the value of a cell. Nothing changes for a cell that the tape does not have. -/
def modify (t : Tape) (c : CellId) (f : UInt8 → UInt8) : Tape :=
  { t with arena := t.arena.modify c.serial fun cell => { cell with value := f cell.value } }

def set (t : Tape) (c : CellId) (v : UInt8) : Tape := t.modify c fun _ => v

def increment (t : Tape) (c : CellId) : Tape := t.modify c (· + 1)

def decrement (t : Tape) (c : CellId) : Tape := t.modify c (· - 1)

/-- The handle of the cell that is added next. -/
def next (t : Tape) : CellId := ⟨t.size⟩

def linkRight (arena : Array Cell) (c d : CellId) : Array Cell :=
  arena.modify c.serial fun cell => { cell with right := some d }

def linkLeft (arena : Array Cell) (c d : CellId) : Array Cell :=
  arena.modify c.serial fun cell => { cell with left := some d }

def extendRight (t : Tape) (c : CellId) : Tape :=
  -- All else is read before the arena grows, which lets it grow in place.
  let added := t.next
  let leftmost := t.leftmost
  ⟨linkRight (t.arena.push { left := some c }) c added, leftmost⟩

def extendLeft (t : Tape) (c : CellId) : Tape :=
  let added := t.next
  let leftmost := if c = t.leftmost then added else t.leftmost
  ⟨linkLeft (t.arena.push { right := some c }) c added, leftmost⟩

/-- The cell to the right of a cell, and the tape that has it. For a cell that the tape does not
have, nothing happens and the answer is that cell. -/
def rightOf (t : Tape) (c : CellId) : CellId × Tape :=
  match t.right? c with
  | some d => (d, t)
  | none => if c ∈ t then (t.next, t.extendRight c) else (c, t)

/-- The cell to the left of a cell, and the tape that has it. For a cell that the tape does not
have, nothing happens and the answer is that cell. -/
def leftOf (t : Tape) (c : CellId) : CellId × Tape :=
  match t.left? c with
  | some d => (d, t)
  | none => if c ∈ t then (t.next, t.extendLeft c) else (c, t)

/-- The cells seen so far and then those from `c?` on to the right, at most `bound` of them. -/
def walk (t : Tape) (seen : Array CellId) : (bound : Nat) → (c? : Option CellId) → Array CellId
  | bound + 1, some c => t.walk (seen.push c) bound (t.right? c)
  | _, _ => seen

def cells (t : Tape) : List CellId := (t.walk #[] t.size (some t.leftmost)).toList

/-- The position of a cell counted from the left end, zero for a cell that the tape does not
have. -/
def indexOf (t : Tape) (c : CellId) : Nat := (t.cells.idxOf? c).getD 0

/-- The offset of a cell from the origin, if the tape has the cell. -/
def offset? (t : Tape) (c : CellId) : Option Int :=
  (t.cells.idxOf? c).map fun i => (i : Int) - t.indexOf origin

/-- The cell at an offset from the origin, if the tape reaches there. -/
def cellAt? (t : Tape) (o : Int) : Option CellId :=
  match o + t.indexOf origin with
  | .ofNat i => t.cells[i]?
  | .negSucc _ => none

/-! ### Membership -/

theorem mem_iff_serial_lt {t : Tape} {c : CellId} : c ∈ t ↔ c.serial < t.size := Iff.rfl

theorem cell?_eq_none_iff {t : Tape} {c : CellId} : t.cell? c = none ↔ c ∉ t := by
  simp [cell?, mem_iff_serial_lt, size]

theorem next_notMem (t : Tape) : t.next ∉ t := Nat.lt_irrefl _

@[simp] theorem right?_next (t : Tape) : t.right? t.next = none := by
  rw [right?, cell?_eq_none_iff.2 t.next_notMem]
  rfl

@[simp] theorem left?_next (t : Tape) : t.left? t.next = none := by
  rw [left?, cell?_eq_none_iff.2 t.next_notMem]
  rfl

theorem mem_of_right? {t : Tape} {c d : CellId} (h : t.right? c = some d) : c ∈ t := by
  by_cases hc : c ∈ t
  · exact hc
  · simp [right?, cell?_eq_none_iff.2 hc] at h

theorem mem_of_left? {t : Tape} {c d : CellId} (h : t.left? c = some d) : c ∈ t := by
  by_cases hc : c ∈ t
  · exact hc
  · simp [left?, cell?_eq_none_iff.2 hc] at h

/-! ### Writing a value -/

theorem cell?_modify (t : Tape) (c d : CellId) (f : UInt8 → UInt8) :
    (t.modify c f).cell? d =
      if d = c then (t.cell? d).map fun cell => { cell with value := f cell.value }
      else t.cell? d := by
  have hs : d = c ↔ c.serial = d.serial := by
    cases c; cases d; simp [eq_comm]
  simp only [modify, cell?, Array.getElem?_modify, hs]

@[simp] theorem size_modify (t : Tape) (c : CellId) (f : UInt8 → UInt8) :
    (t.modify c f).size = t.size := by
  simp [modify, size]

@[simp] theorem mem_modify {t : Tape} {c d : CellId} {f : UInt8 → UInt8} :
    d ∈ t.modify c f ↔ d ∈ t := by
  simp [mem_iff_serial_lt]

@[simp] theorem leftmost_modify (t : Tape) (c : CellId) (f : UInt8 → UInt8) :
    (t.modify c f).leftmost = t.leftmost := rfl

@[simp] theorem right?_modify (t : Tape) (c d : CellId) (f : UInt8 → UInt8) :
    (t.modify c f).right? d = t.right? d := by
  simp only [right?, cell?_modify]
  split
  · cases t.cell? d <;> rfl
  · rfl

@[simp] theorem left?_modify (t : Tape) (c d : CellId) (f : UInt8 → UInt8) :
    (t.modify c f).left? d = t.left? d := by
  simp only [left?, cell?_modify]
  split
  · cases t.cell? d <;> rfl
  · rfl

theorem value_modify {t : Tape} {c : CellId} (hc : c ∈ t) (d : CellId) (f : UInt8 → UInt8) :
    (t.modify c f).value d = if d = c then f (t.value c) else t.value d := by
  simp only [value, cell?_modify]
  split
  · next h =>
    subst h
    cases hd : t.cell? d with
    | none => exact absurd hc (cell?_eq_none_iff.1 hd)
    | some cell => rfl
  · rfl

/-! ### Adding a cell -/

section Extend

variable {t : Tape} {c : CellId}

/-- What an arena holds after a cell was added and another one changed. -/
theorem getElem?_modify_push_arena (hc : c ∈ t) (added : Cell) (f : Cell → Cell) (d : CellId) :
    ((t.arena.push added).modify c.serial f)[d.serial]? =
      if d = c then (t.cell? c).map f else if d = t.next then some added else t.cell? d := by
  have hs (a b : CellId) : a.serial = b.serial ↔ a = b := by
    cases a; cases b; simp
  have hn : c ≠ t.next := fun h => t.next_notMem (h ▸ hc)
  simp only [Array.getElem?_modify, Array.getElem?_push, hs, eq_comm (a := c), cell?]
  split
  · next h =>
    subst h
    exact congrArg _ (if_neg hn)
  · rfl

theorem cell?_extendRight (hc : c ∈ t) (d : CellId) :
    (t.extendRight c).cell? d =
      if d = c then (t.cell? c).map fun cell => { cell with right := some t.next }
      else if d = t.next then some { left := some c }
      else t.cell? d :=
  getElem?_modify_push_arena hc _ _ d

theorem cell?_extendLeft (hc : c ∈ t) (d : CellId) :
    (t.extendLeft c).cell? d =
      if d = c then (t.cell? c).map fun cell => { cell with left := some t.next }
      else if d = t.next then some { right := some c }
      else t.cell? d :=
  getElem?_modify_push_arena hc _ _ d

@[simp] theorem size_extendRight (t : Tape) (c : CellId) :
    (t.extendRight c).size = t.size + 1 := by
  simp [extendRight, linkRight, size]

@[simp] theorem size_extendLeft (t : Tape) (c : CellId) :
    (t.extendLeft c).size = t.size + 1 := by
  simp [extendLeft, linkLeft, size]

@[simp] theorem leftmost_extendRight (t : Tape) (c : CellId) :
    (t.extendRight c).leftmost = t.leftmost := rfl

theorem leftmost_extendLeft (t : Tape) (c : CellId) :
    (t.extendLeft c).leftmost = if c = t.leftmost then t.next else t.leftmost := rfl

theorem mem_of_size_eq_succ {t u : Tape} (h : u.size = t.size + 1) {d : CellId} :
    d ∈ u ↔ d ∈ t ∨ d = t.next := by
  cases d
  simp only [mem_iff_serial_lt, next, CellId.mk.injEq, h]
  omega

theorem mem_extendRight {d : CellId} : d ∈ t.extendRight c ↔ d ∈ t ∨ d = t.next :=
  mem_of_size_eq_succ (t.size_extendRight c)

theorem mem_extendLeft {d : CellId} : d ∈ t.extendLeft c ↔ d ∈ t ∨ d = t.next :=
  mem_of_size_eq_succ (t.size_extendLeft c)

theorem right?_extendRight (hc : c ∈ t) (d : CellId) :
    (t.extendRight c).right? d = if d = c then some t.next else t.right? d := by
  have hnew := t.right?_next
  have ⟨cell, hcell⟩ := Option.ne_none_iff_exists'.1 (mt cell?_eq_none_iff.1 (not_not_intro hc))
  simp only [right?, cell?_extendRight hc] at hnew ⊢
  split
  · rw [hcell]; rfl
  · split
    · next h => rw [h, hnew]; rfl
    · rfl

theorem left?_extendRight (hc : c ∈ t) (d : CellId) :
    (t.extendRight c).left? d = if d = t.next then some c else t.left? d := by
  have hn : c ≠ t.next := fun h => t.next_notMem (h ▸ hc)
  simp only [left?, cell?_extendRight hc]
  split
  · next h =>
    subst h
    rw [if_neg hn]
    cases t.cell? d <;> rfl
  · split <;> rfl

theorem left?_extendLeft (hc : c ∈ t) (d : CellId) :
    (t.extendLeft c).left? d = if d = c then some t.next else t.left? d := by
  have hnew := t.left?_next
  have ⟨cell, hcell⟩ := Option.ne_none_iff_exists'.1 (mt cell?_eq_none_iff.1 (not_not_intro hc))
  simp only [left?, cell?_extendLeft hc] at hnew ⊢
  split
  · rw [hcell]; rfl
  · split
    · next h => rw [h, hnew]; rfl
    · rfl

theorem right?_extendLeft (hc : c ∈ t) (d : CellId) :
    (t.extendLeft c).right? d = if d = t.next then some c else t.right? d := by
  have hn : c ≠ t.next := fun h => t.next_notMem (h ▸ hc)
  simp only [right?, cell?_extendLeft hc]
  split
  · next h =>
    subst h
    rw [if_neg hn]
    cases t.cell? d <;> rfl
  · split <;> rfl

theorem value_extendRight (hc : c ∈ t) (d : CellId) : (t.extendRight c).value d = t.value d := by
  simp only [value, cell?_extendRight hc]
  split
  · next h => rw [h]; cases t.cell? c <;> rfl
  · split
    · next h => rw [h, cell?_eq_none_iff.2 t.next_notMem]; rfl
    · rfl

theorem value_extendLeft (hc : c ∈ t) (d : CellId) : (t.extendLeft c).value d = t.value d := by
  simp only [value, cell?_extendLeft hc]
  split
  · next h => rw [h]; cases t.cell? c <;> rfl
  · split
    · next h => rw [h, cell?_eq_none_iff.2 t.next_notMem]; rfl
    · rfl

end Extend

/-! ### Neighbors -/

section Neighbors

variable {t : Tape} {c d : CellId}

theorem rightOf_of_right? (h : t.right? c = some d) : t.rightOf c = (d, t) := by
  rw [rightOf, h]

theorem leftOf_of_left? (h : t.left? c = some d) : t.leftOf c = (d, t) := by
  rw [leftOf, h]

theorem rightOf_of_none (hc : c ∈ t) (h : t.right? c = none) :
    t.rightOf c = (t.next, t.extendRight c) := by
  rw [rightOf, h]
  exact if_pos hc

theorem leftOf_of_none (hc : c ∈ t) (h : t.left? c = none) :
    t.leftOf c = (t.next, t.extendLeft c) := by
  rw [leftOf, h]
  exact if_pos hc

end Neighbors

end Tape

end Brainfuck
