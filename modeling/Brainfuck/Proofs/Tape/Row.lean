import Brainfuck.Tape.Basic
import Mathlib.Data.List.Nodup
import Mathlib.Data.Set.Function
import Mathlib.Order.Interval.Set.Defs

/-!
# The row of a tape

Serials say when a cell was added and nothing about where it lies, so the order of the cells is in
their links alone. `IsRow` says that a list is that order. Adding a cell at either end adds it at
the same end of the row, and the walk from the left end visits the row and stops.
-/

namespace Brainfuck.Tape

/-- A list of cells is the row of a tape: it has every cell once, begins at the left end, and each
cell is linked to the ones before and after it. -/
structure IsRow (t : Tape) (row : List CellId) : Prop where
  nodup : row.Nodup
  mem_iff : ∀ c, c ∈ row ↔ c ∈ t
  head : row[0]? = some t.leftmost
  right : ∀ i c, row[i]? = some c → t.right? c = row[i + 1]?
  left : ∀ i c, row[i + 1]? = some c → t.left? c = row[i]?
  left_leftmost : t.left? t.leftmost = none

/-- The cells of a tape, in the order of the walk, are its row. -/
def Linked (t : Tape) : Prop := t.IsRow t.cells

/-- From a cell on to the right, a tape has these cells and no more. -/
inductive Yields (t : Tape) : Option CellId → List CellId → Prop
  | stop : Yields t none []
  | step {c cell cs} : t.cell? c = some cell → Yields t cell.right cs → Yields t (some c) (c :: cs)

/-! ### Walking the row -/

theorem walk_eq_append (t : Tape) (seen : Array CellId) (bound : Nat) (c? : Option CellId) :
    (t.walk seen bound c?).toList = seen.toList ++ (t.walk #[] bound c?).toList := by
  induction bound generalizing seen c? with
  | zero => simp [walk]
  | succ bound ih =>
    cases c? with
    | none => simp [walk]
    | some c =>
      simp only [walk]
      rw [ih (seen.push c), ih (#[].push c)]
      simp

theorem IsRow.length {t : Tape} {row : List CellId} (h : t.IsRow row) : row.length = t.size := by
  have hperm : row.Perm ((List.range t.size).map CellId.mk) := by
    refine (List.perm_ext_iff_of_nodup h.nodup ?_).2 fun c => ?_
    · exact List.nodup_range.map fun _ _ => CellId.mk.inj
    · rw [h.mem_iff, mem_iff_serial_lt]
      cases c
      simp
  simpa using hperm.length_eq

theorem IsRow.walk_eq_drop {t : Tape} {row : List CellId} (h : t.IsRow row) (bound i : Nat)
    (hb : row.length ≤ i + bound) : (t.walk #[] bound row[i]?).toList = row.drop i := by
  induction bound generalizing i with
  | zero => simp [walk, List.drop_of_length_le (by omega : row.length ≤ i)]
  | succ bound ih =>
    cases hi : row[i]? with
    | none => simp [walk, List.drop_of_length_le (List.getElem?_eq_none_iff.1 hi)]
    | some c =>
      obtain ⟨hlt, hc⟩ := List.getElem?_eq_some_iff.1 hi
      rw [walk, walk_eq_append, h.right i c hi, ih (i + 1) (by omega),
        List.drop_eq_getElem_cons hlt, hc]
      rfl

/-- The walk from the left end finds the row. -/
theorem IsRow.cells_eq {t : Tape} {row : List CellId} (h : t.IsRow row) : t.cells = row := by
  rw [cells, ← h.head, h.walk_eq_drop _ _ (by rw [h.length]; omega), List.drop_zero]

theorem IsRow.linked {t : Tape} {row : List CellId} (h : t.IsRow row) : t.Linked := by
  rw [Linked, h.cells_eq]
  exact h

theorem IsRow.yields_drop {t : Tape} {row : List CellId} (h : t.IsRow row) (i : Nat) :
    t.Yields row[i]? (row.drop i) := by
  induction hn : row.length - i generalizing i with
  | zero =>
    rw [List.getElem?_eq_none (by omega), List.drop_of_length_le (by omega)]
    exact .stop
  | succ n ih =>
    have hlt : i < row.length := by omega
    rw [List.getElem?_eq_getElem hlt, List.drop_eq_getElem_cons hlt]
    cases hc : t.cell? row[i] with
    | none => exact absurd ((h.mem_iff _).1 (List.getElem_mem hlt)) (cell?_eq_none_iff.1 hc)
    | some cell =>
      refine .step hc ?_
      have hr : cell.right = row[i + 1]? := by
        rw [← h.right i _ (List.getElem?_eq_getElem hlt), right?, hc]
        rfl
      rw [hr]
      exact ih (i + 1) (by omega)

/-! ### The row of a tape that is worked on -/

theorem isRow_fresh : fresh.IsRow [origin] where
  nodup := List.nodup_singleton _
  mem_iff c := by
    cases c
    simp [mem_iff_serial_lt, fresh, size, origin]
  head := rfl
  right i c h := by
    obtain ⟨rfl, rfl⟩ : i = 0 ∧ c = origin := by
      cases i <;> simp_all
    rfl
  left i c h := by simp at h
  left_leftmost := rfl

theorem IsRow.modify {t : Tape} {row : List CellId} (h : t.IsRow row) (c : CellId)
    (f : UInt8 → UInt8) : (t.modify c f).IsRow row where
  nodup := h.nodup
  mem_iff d := by rw [mem_modify]; exact h.mem_iff d
  head := h.head
  right i d hd := by rw [right?_modify]; exact h.right i d hd
  left i d hd := by rw [left?_modify]; exact h.left i d hd
  left_leftmost := by rw [left?_modify]; exact h.left_leftmost

section Extend

variable {t : Tape} {row : List CellId} {c : CellId}

theorem IsRow.next_notMem (h : t.IsRow row) : t.next ∉ row :=
  fun hn => t.next_notMem ((h.mem_iff _).1 hn)

theorem IsRow.exists_last (h : t.IsRow row) (hc : c ∈ t) (hr : t.right? c = none) :
    ∃ i, row[i]? = some c ∧ row.length = i + 1 := by
  obtain ⟨i, hi⟩ := List.getElem?_of_mem ((h.mem_iff c).2 hc)
  have hnext := h.right i c hi ▸ hr
  have hle := List.getElem?_eq_none_iff.1 hnext
  have hlt := (List.getElem?_eq_some_iff.1 hi).1
  exact ⟨i, hi, by omega⟩

theorem IsRow.eq_leftmost (h : t.IsRow row) (hc : c ∈ t) (hl : t.left? c = none) :
    c = t.leftmost := by
  obtain ⟨i, hi⟩ := List.getElem?_of_mem ((h.mem_iff c).2 hc)
  cases i with
  | zero => simpa [h.head, eq_comm] using hi
  | succ i =>
    have hprev := h.left i c hi ▸ hl
    have hle := List.getElem?_eq_none_iff.1 hprev
    have hlt := (List.getElem?_eq_some_iff.1 hi).1
    omega

theorem IsRow.nodup_next (h : t.IsRow row) : (t.next :: row).Nodup :=
  List.nodup_cons.2 ⟨h.next_notMem, h.nodup⟩

theorem IsRow.extendRight (h : t.IsRow row) (hc : c ∈ t) (hr : t.right? c = none) :
    (t.extendRight c).IsRow (row ++ [t.next]) := by
  obtain ⟨i, hi, hlen⟩ := h.exists_last hc hr
  have hnew := h.next_notMem
  have hnd := h.nodup
  refine ⟨?_, fun d => ?_, ?_, fun j d hd => ?_, fun j d hd => ?_, ?_⟩
  · exact List.nodup_middle.2 (by simpa using h.nodup_next)
  · rw [List.mem_append, h.mem_iff, mem_extendRight, List.mem_singleton]
  · rw [List.getElem?_append_left (by omega), leftmost_extendRight, h.head]
  · rw [right?_extendRight hc]
    have hright := h.right j d
    have hnone := t.right?_next
    grind
  · rw [left?_extendRight hc]
    have hleft := h.left j d
    grind
  · rw [left?_extendRight hc, leftmost_extendRight, if_neg, h.left_leftmost]
    rintro h0
    exact hnew (h0 ▸ List.mem_of_getElem? h.head)

theorem IsRow.extendLeft (h : t.IsRow row) (hc : c ∈ t) (hl : t.left? c = none) :
    (t.extendLeft c).IsRow (t.next :: row) := by
  obtain rfl := h.eq_leftmost hc hl
  have hnew := h.next_notMem
  have hnd := h.nodup
  have hhead := h.head
  refine ⟨h.nodup_next, fun d => ?_, ?_, fun j d hd => ?_, fun j d hd => ?_, ?_⟩
  · rw [List.mem_cons, h.mem_iff, mem_extendLeft, or_comm]
  · rw [leftmost_extendLeft, if_pos rfl, List.getElem?_cons_zero]
  · rw [right?_extendLeft hc, List.getElem?_cons_succ]
    cases j with
    | zero =>
      obtain rfl : t.next = d := by simpa using hd
      rw [if_pos rfl, h.head]
    | succ j =>
      rw [List.getElem?_cons_succ] at hd
      have hright := h.right j d hd
      grind
  · rw [left?_extendLeft hc]
    cases j with
    | zero => grind
    | succ j =>
      have hleft := h.left j d
      grind
  · rw [leftmost_extendLeft, if_pos rfl, left?_extendLeft hc, left?_next]
    grind

end Extend

/-! ### Linked tapes -/

section Linked

variable {t : Tape} {a b c : CellId}

theorem linked_fresh : fresh.Linked := isRow_fresh.linked

theorem cells_fresh : fresh.cells = [origin] := isRow_fresh.cells_eq

theorem Linked.modify (ht : t.Linked) (c : CellId) (f : UInt8 → UInt8) : (t.modify c f).Linked :=
  (IsRow.modify ht c f).linked

theorem Linked.cells_modify (ht : t.Linked) (c : CellId) (f : UInt8 → UInt8) :
    (t.modify c f).cells = t.cells :=
  (IsRow.modify ht c f).cells_eq

theorem Linked.cells_extendRight (ht : t.Linked) (hc : c ∈ t) (hr : t.right? c = none) :
    (t.extendRight c).cells = t.cells ++ [t.next] :=
  (IsRow.extendRight ht hc hr).cells_eq

theorem Linked.cells_extendLeft (ht : t.Linked) (hc : c ∈ t) (hl : t.left? c = none) :
    (t.extendLeft c).cells = t.next :: t.cells :=
  (IsRow.extendLeft ht hc hl).cells_eq

theorem Linked.mem_cells (ht : t.Linked) : c ∈ t.cells ↔ c ∈ t := ht.mem_iff c

theorem Linked.leftmost_mem (ht : t.Linked) : t.leftmost ∈ t :=
  ht.mem_cells.1 (List.mem_of_getElem? ht.head)

theorem Linked.origin_mem (ht : t.Linked) : origin ∈ t :=
  Nat.lt_of_le_of_lt (Nat.zero_le _) ht.leftmost_mem

theorem Linked.right?_eq_some_iff (ht : t.Linked) :
    t.right? a = some b ↔ ∃ i, t.cells[i]? = some a ∧ t.cells[i + 1]? = some b := by
  constructor
  · intro h
    obtain ⟨i, hi⟩ := List.getElem?_of_mem (ht.mem_cells.2 (mem_of_right? h))
    exact ⟨i, hi, ht.right i a hi ▸ h⟩
  · rintro ⟨i, ha, hb⟩
    rw [ht.right i a ha, hb]

theorem Linked.left?_eq_some_iff (ht : t.Linked) :
    t.left? b = some a ↔ ∃ i, t.cells[i]? = some a ∧ t.cells[i + 1]? = some b := by
  constructor
  · intro h
    obtain ⟨i, hi⟩ := List.getElem?_of_mem (ht.mem_cells.2 (mem_of_left? h))
    cases i with
    | zero =>
      obtain rfl : t.leftmost = b := by simpa [ht.head] using hi
      simp [ht.left_leftmost] at h
    | succ i => exact ⟨i, ht.left i b hi ▸ h, hi⟩
  · rintro ⟨i, ha, hb⟩
    rw [ht.left i b hb, ha]

theorem Linked.right?_iff_left? (ht : t.Linked) : t.right? a = some b ↔ t.left? b = some a := by
  rw [ht.right?_eq_some_iff, ht.left?_eq_some_iff]

theorem Linked.left?_eq_none_iff (ht : t.Linked) (hc : c ∈ t) :
    t.left? c = none ↔ c = t.leftmost :=
  ⟨IsRow.eq_leftmost ht hc, fun h => h ▸ ht.left_leftmost⟩

theorem Linked.existsUnique_right?_eq_none (ht : t.Linked) :
    ∃! c, c ∈ t ∧ t.right? c = none := by
  have hpos : 0 < t.cells.length := List.length_pos_of_mem (List.mem_of_getElem? ht.head)
  have hlast : t.cells[t.cells.length - 1]? = some (t.cells[t.cells.length - 1]) :=
    List.getElem?_eq_getElem (by omega)
  refine ⟨_, ⟨ht.mem_cells.1 (List.mem_of_getElem? hlast), ?_⟩, ?_⟩
  · rw [ht.right _ _ hlast, List.getElem?_eq_none (by omega)]
  · rintro c ⟨hc, hr⟩
    obtain ⟨i, hi, hlen⟩ := IsRow.exists_last ht hc hr
    obtain rfl : i = t.cells.length - 1 := by omega
    exact Option.some.inj (hi.symm.trans hlast)

theorem Linked.idxOf?_cells (ht : t.Linked) (hc : c ∈ t) :
    t.cells.idxOf? c = some (t.indexOf c) := by
  obtain ⟨i, hi⟩ := Option.isSome_iff_exists.1 (List.isSome_idxOf?.2 (ht.mem_cells.2 hc))
  rw [indexOf, hi]
  rfl

theorem Linked.getElem?_cells_eq_some_iff (ht : t.Linked) {i : Nat} :
    t.cells[i]? = some c ↔ c ∈ t ∧ t.indexOf c = i := by
  constructor
  · intro hi
    have hc := ht.mem_cells.1 (List.mem_of_getElem? hi)
    obtain ⟨hlt, hj, -⟩ := List.idxOf?_eq_some_iff.1 (ht.idxOf?_cells hc)
    refine ⟨hc, ?_⟩
    have heq : t.cells[t.indexOf c]? = t.cells[i]? := by
      rw [hi, List.getElem?_eq_getElem hlt, hj]
    exact (List.getElem?_inj hlt ht.nodup).1 heq
  · rintro ⟨hc, rfl⟩
    obtain ⟨hlt, hj, -⟩ := List.idxOf?_eq_some_iff.1 (ht.idxOf?_cells hc)
    rw [List.getElem?_eq_getElem hlt, hj]

theorem Linked.indexOf_lt (ht : t.Linked) (hc : c ∈ t) : t.indexOf c < t.size := by
  have hi := ht.getElem?_cells_eq_some_iff.2 ⟨hc, rfl⟩
  exact IsRow.length ht ▸ (List.getElem?_eq_some_iff.1 hi).1

theorem Linked.bijOn_indexOf (ht : t.Linked) :
    Set.BijOn t.indexOf {c | c ∈ t} (Set.Iio t.size) := by
  refine ⟨fun c hc => ht.indexOf_lt hc, fun c hc d hd h => ?_, fun i hi => ?_⟩
  · have hi := ht.getElem?_cells_eq_some_iff.2 ⟨hc, h⟩
    have hj := ht.getElem?_cells_eq_some_iff.2 ⟨hd, rfl⟩
    exact Option.some.inj (hi.symm.trans hj)
  · have hlt : i < t.cells.length := by rwa [IsRow.length ht]
    exact ⟨t.cells[i], ht.getElem?_cells_eq_some_iff.1 (List.getElem?_eq_getElem hlt)⟩

theorem Linked.yields (ht : t.Linked) : t.Yields (some t.leftmost) t.cells := by
  have h := IsRow.yields_drop ht 0
  rwa [ht.head, List.drop_zero] at h

end Linked

end Brainfuck.Tape
