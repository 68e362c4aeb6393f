import Brainfuck.Proofs.Tape.Offset

/-!
# A tape without ends

The cells of a tape stand for a stretch of a tape without ends, and their handles name places on it
for good. A move goes to the next place and a move back returns from there, whichever handles are
used in whichever order; only a move past the last place so far adds a cell, at that end. A write is
seen in the cell that it names and nowhere else.
-/

namespace Brainfuck.Tape

variable {t u : Tape} {c d : CellId} {o : Int}

/-! ### Places -/

theorem Linked.offset?_of_reaches (ht : t.Linked) (h : t.Reaches u) (hc : c ∈ t) :
    u.offset? c = t.offset? c := by
  obtain ⟨o, ho⟩ := ht.exists_offset? hc
  rw [ho]
  exact ht.offset?_of_infix (ht.reaches h) (ht.cells_infix_of_reaches h) ho

theorem Linked.offset?_eq (ht : t.Linked) (hc : c ∈ t) :
    t.offset? c = some ((t.indexOf c : Int) - t.indexOf origin) :=
  ht.offset?_eq_some_iff.2 ⟨hc, rfl⟩

/-! ### There and back -/

theorem Linked.leftOf_rightOf (ht : t.Linked) (hc : c ∈ t) :
    (t.rightOf c).2.leftOf (t.rightOf c).1 = (c, (t.rightOf c).2) := by
  have hu : (t.rightOf c).2.Linked := ht.edit (.rightOf hc)
  apply leftOf_of_left?
  exact hu.right?_iff_left?.1 (right?_rightOf hc)

theorem Linked.rightOf_leftOf (ht : t.Linked) (hc : c ∈ t) :
    (t.leftOf c).2.rightOf (t.leftOf c).1 = (c, (t.leftOf c).2) := by
  have hu : (t.leftOf c).2.Linked := ht.edit (.leftOf hc)
  apply rightOf_of_right?
  exact hu.right?_iff_left?.2 (left?_leftOf hc)

/-- Once a neighbor was asked for, it is there whatever is done in between. -/
theorem Linked.rightOf_of_reaches (ht : t.Linked) (hc : c ∈ t)
    (h : (t.rightOf c).2.Reaches u) : u.rightOf c = ((t.rightOf c).1, u) := by
  have hv : (t.rightOf c).2.Linked := ht.edit (.rightOf hc)
  apply rightOf_of_right?
  exact hv.right?_of_infix (hv.reaches h) (hv.cells_infix_of_reaches h) (right?_rightOf hc)

theorem Linked.leftOf_of_reaches (ht : t.Linked) (hc : c ∈ t)
    (h : (t.leftOf c).2.Reaches u) : u.leftOf c = ((t.leftOf c).1, u) := by
  have hv : (t.leftOf c).2.Linked := ht.edit (.leftOf hc)
  apply leftOf_of_left?
  exact hv.left?_of_infix (hv.reaches h) (hv.cells_infix_of_reaches h) (left?_leftOf hc)

/-! ### The ends -/

theorem Linked.right?_eq_none_iff (ht : t.Linked) (hc : c ∈ t) :
    t.right? c = none ↔ t.indexOf c + 1 = t.size := by
  have hi := ht.getElem?_cells_eq_some_iff.2 ⟨hc, rfl⟩
  have hlt := ht.indexOf_lt hc
  have hlen : t.cells.length = t.size := IsRow.length ht
  rw [ht.right _ _ hi, List.getElem?_eq_none_iff]
  omega

theorem Linked.left?_eq_none_iff_indexOf (ht : t.Linked) (hc : c ∈ t) :
    t.left? c = none ↔ t.indexOf c = 0 := by
  have hfirst := ht.getElem?_cells_eq_some_iff.1 ht.head
  rw [ht.left?_eq_none_iff hc]
  constructor
  · intro h
    rw [h]
    exact hfirst.2
  · intro h
    have hi := ht.getElem?_cells_eq_some_iff.2 ⟨hc, h⟩
    exact Option.some.inj (hi.symm.trans ht.head)

/-- A tape has got one more cell: the one that was to be added next, holding zero, with all the
values as they were. -/
structure Grows (t u : Tape) : Prop where
  size_eq : u.size = t.size + 1
  next_mem : t.next ∈ u
  value_next : u.value t.next = 0
  value_eq : ∀ a, u.value a = t.value a

theorem grows_extendRight (hc : c ∈ t) : t.Grows (t.extendRight c) where
  size_eq := size_extendRight t c
  next_mem := mem_extendRight.2 (.inr rfl)
  value_next := by rw [value_extendRight hc, value_of_notMem t.next_notMem]
  value_eq := value_extendRight hc

theorem grows_extendLeft (hc : c ∈ t) : t.Grows (t.extendLeft c) where
  size_eq := size_extendLeft t c
  next_mem := mem_extendLeft.2 (.inr rfl)
  value_next := by rw [value_extendLeft hc, value_of_notMem t.next_notMem]
  value_eq := value_extendLeft hc

theorem Linked.indexOf_of_append (ht : t.Linked) (hu : u.Linked) (before after : List CellId)
    (h : u.cells = before ++ (t.cells ++ after)) (hc : c ∈ t) :
    u.indexOf c = before.length + t.indexOf c := by
  have hi := ht.getElem?_cells_eq_some_iff.2 ⟨hc, rfl⟩
  have hlt := (List.getElem?_eq_some_iff.1 hi).1
  apply And.right
  apply hu.getElem?_cells_eq_some_iff.1
  rw [h, List.getElem?_append_right (by omega), Nat.add_sub_cancel_left,
    List.getElem?_append_left hlt, hi]

theorem Linked.rightOf_of_last (ht : t.Linked) (hc : c ∈ t) (hlast : t.indexOf c + 1 = t.size) :
    (t.rightOf c).1 = t.next ∧ t.Grows (t.rightOf c).2 ∧
      (t.rightOf c).2.cells = t.cells ++ [t.next] ∧
      ∀ a ∈ t, (t.rightOf c).2.indexOf a = t.indexOf a := by
  have hr : t.right? c = none := (ht.right?_eq_none_iff hc).2 hlast
  have hu : (t.rightOf c).2.Linked := ht.edit (.rightOf hc)
  have hcells := ht.cells_extendRight hc hr
  rw [rightOf_of_none hc hr] at hu ⊢
  refine ⟨rfl, grows_extendRight hc, hcells, ?_⟩
  intro a ha
  have h := ht.indexOf_of_append hu [] [t.next] hcells ha
  rwa [List.length_nil, Nat.zero_add] at h

theorem Linked.leftOf_of_first (ht : t.Linked) (hc : c ∈ t) (hfirst : t.indexOf c = 0) :
    (t.leftOf c).1 = t.next ∧ t.Grows (t.leftOf c).2 ∧
      (t.leftOf c).2.cells = t.next :: t.cells ∧
      ∀ a ∈ t, (t.leftOf c).2.indexOf a = t.indexOf a + 1 := by
  have hl : t.left? c = none := (ht.left?_eq_none_iff_indexOf hc).2 hfirst
  have hu : (t.leftOf c).2.Linked := ht.edit (.leftOf hc)
  have hcells := ht.cells_extendLeft hc hl
  rw [leftOf_of_none hc hl] at hu ⊢
  refine ⟨rfl, grows_extendLeft hc, hcells, ?_⟩
  intro a ha
  have h := ht.indexOf_of_append hu [t.next] []
    (by rw [hcells, List.append_nil, List.singleton_append]) ha
  rwa [List.length_singleton, Nat.add_comm] at h

theorem Linked.rightOf_of_not_last (ht : t.Linked) (hc : c ∈ t)
    (h : t.indexOf c + 1 ≠ t.size) : (t.rightOf c).2 = t := by
  cases hr : t.right? c with
  | none => exact absurd ((ht.right?_eq_none_iff hc).1 hr) h
  | some d => rw [rightOf_of_right? hr]

theorem Linked.leftOf_of_not_first (ht : t.Linked) (hc : c ∈ t) (h : t.indexOf c ≠ 0) :
    (t.leftOf c).2 = t := by
  cases hl : t.left? c with
  | none => exact absurd ((ht.left?_eq_none_iff_indexOf hc).1 hl) h
  | some d => rw [leftOf_of_left? hl]

/-! ### Writing -/

/-- A tape differs from another one in the value of a single cell, if at all. -/
structure Writes (t : Tape) (c : CellId) (v : UInt8) (u : Tape) : Prop where
  size_eq : u.size = t.size
  leftmost_eq : u.leftmost = t.leftmost
  right?_eq : ∀ d, u.right? d = t.right? d
  left?_eq : ∀ d, u.left? d = t.left? d
  cells_eq : u.cells = t.cells
  value_eq : ∀ d, u.value d = if d = c then v else t.value d

theorem Linked.writes_modify (ht : t.Linked) (hc : c ∈ t) (f : UInt8 → UInt8) :
    t.Writes c (f (t.value c)) (t.modify c f) where
  size_eq := size_modify t c f
  leftmost_eq := rfl
  right?_eq d := right?_modify t c d f
  left?_eq d := left?_modify t c d f
  cells_eq := ht.cells_modify c f
  value_eq d := value_modify hc d f

/-- The tapes that can be reached behave like one tape without ends. Each handle keeps its offset
from the origin. A move leads to the cell at the next offset, a move back undoes it, and a move made
again leads to the same cell, also after other operations, and adds none. A cell is added only by a
move past the last offset there is on that side; it is the next one, it holds zero, and it goes to
that end of the row. Setting, increasing and decreasing a cell changes its value alone. -/
theorem offsets_of_reaches_fresh {t : Tape} (h : fresh.Reaches t) :
    (∀ c ∈ t, t.offset? c = some ((t.indexOf c : Int) - t.indexOf origin) ∧
      ∀ u, t.Reaches u → u.offset? c = t.offset? c) ∧
    (∀ c o, t.offset? c = some o →
      ((t.rightOf c).2.offset? (t.rightOf c).1 = some (o + 1) ∧
        (t.rightOf c).2.cellAt? (o + 1) = some (t.rightOf c).1) ∧
      (t.leftOf c).2.offset? (t.leftOf c).1 = some (o - 1) ∧
        (t.leftOf c).2.cellAt? (o - 1) = some (t.leftOf c).1) ∧
    (∀ c ∈ t,
      (t.rightOf c).2.leftOf (t.rightOf c).1 = (c, (t.rightOf c).2) ∧
      (t.leftOf c).2.rightOf (t.leftOf c).1 = (c, (t.leftOf c).2) ∧
      (∀ u, (t.rightOf c).2.Reaches u → u.rightOf c = ((t.rightOf c).1, u)) ∧
      ∀ u, (t.leftOf c).2.Reaches u → u.leftOf c = ((t.leftOf c).1, u)) ∧
    (∀ c ∈ t,
      (t.indexOf c + 1 ≠ t.size → (t.rightOf c).2 = t) ∧
      (t.indexOf c ≠ 0 → (t.leftOf c).2 = t) ∧
      (t.indexOf c + 1 = t.size →
        (t.rightOf c).1 = t.next ∧ t.Grows (t.rightOf c).2 ∧
        (t.rightOf c).2.cells = t.cells ++ [t.next] ∧
        ∀ a ∈ t, (t.rightOf c).2.indexOf a = t.indexOf a) ∧
      (t.indexOf c = 0 →
        (t.leftOf c).1 = t.next ∧ t.Grows (t.leftOf c).2 ∧
        (t.leftOf c).2.cells = t.next :: t.cells ∧
        ∀ a ∈ t, (t.leftOf c).2.indexOf a = t.indexOf a + 1)) ∧
    ∀ c ∈ t,
      (∀ v, t.Writes c v (t.set c v)) ∧
      (∃ v, v.toNat = ((t.value c).toNat + 1) % 256 ∧ t.Writes c v (t.increment c)) ∧
      ∃ v, v.toNat = ((t.value c).toNat + 255) % 256 ∧ t.Writes c v (t.decrement c) := by
  have ht : t.Linked := linked_fresh.reaches h
  refine ⟨?_, ?_, ?_, ?_, ?_⟩
  · intro c hc
    exact ⟨ht.offset?_eq hc, fun u hu => ht.offset?_of_reaches hu hc⟩
  · intro c o ho
    have hc : c ∈ t := (ht.offset?_eq_some_iff.1 ho).1
    have hright := ht.offset?_rightOf ho
    have hleft := ht.offset?_leftOf ho
    exact ⟨⟨hright, (ht.edit (.rightOf hc)).cellAt?_eq_some_iff.2 hright⟩,
      hleft, (ht.edit (.leftOf hc)).cellAt?_eq_some_iff.2 hleft⟩
  · intro c hc
    exact ⟨ht.leftOf_rightOf hc, ht.rightOf_leftOf hc, fun u hu => ht.rightOf_of_reaches hc hu,
      fun u hu => ht.leftOf_of_reaches hc hu⟩
  · intro c hc
    exact ⟨ht.rightOf_of_not_last hc, ht.leftOf_of_not_first hc, ht.rightOf_of_last hc,
      ht.leftOf_of_first hc⟩
  · intro c hc
    refine ⟨fun v => ht.writes_modify hc fun _ => v, ?_, ?_⟩
    · exact ⟨t.value c + 1, UInt8.toNat_add _ _, ht.writes_modify hc (· + 1)⟩
    · refine ⟨t.value c - 1, ?_, ht.writes_modify hc (· - 1)⟩
      rw [UInt8.toNat_sub]
      show (256 - 1 + (t.value c).toNat) % 256 = _
      rw [Nat.add_comm]

/-- On a tape that grew to both sides, the cell at the left end is left for a new one and found
again. -/
theorem offsets_of_reaches_fresh_grown :
    let t := ((fresh.rightOf origin).2.leftOf origin).2
    fresh.Reaches t ∧ t.indexOf ⟨2⟩ = 0 ∧
      (t.leftOf ⟨2⟩).1 = ⟨3⟩ ∧ (t.leftOf ⟨2⟩).2.indexOf origin = 2 ∧
      (t.leftOf ⟨2⟩).2.rightOf ⟨3⟩ = (⟨2⟩, (t.leftOf ⟨2⟩).2) := by
  have h : fresh.Reaches ((fresh.rightOf origin).2.leftOf origin).2 :=
    .tail (.single (.rightOf (by decide))) (.leftOf (by decide))
  obtain ⟨-, -, hback, hend, -⟩ := offsets_of_reaches_fresh h
  obtain ⟨-, -, -, hgrow⟩ := hend ⟨2⟩ (by decide)
  obtain ⟨hnew, -, -, hindex⟩ := hgrow (by decide)
  exact ⟨h, by decide, hnew, hindex origin (by decide), (hback ⟨2⟩ (by decide)).2.1⟩

end Brainfuck.Tape
