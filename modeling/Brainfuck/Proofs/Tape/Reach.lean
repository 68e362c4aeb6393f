import Brainfuck.Proofs.Tape.Row
import Mathlib.Logic.Relation

/-!
# Tapes that can be reached

A tape is worked on by taking neighbors, which may add cells, and by changing values, each time on
a cell that it has. Every tape that begins as a fresh one stays linked, and its row only ever grows
at its ends, so what a handle names does not change.
-/

namespace Brainfuck.Tape

/-- One operation on a cell that the tape has. -/
inductive Edit (t : Tape) : Tape → Prop
  | rightOf {c} : c ∈ t → Edit t (t.rightOf c).2
  | leftOf {c} : c ∈ t → Edit t (t.leftOf c).2
  | set {c} (v : UInt8) : c ∈ t → Edit t (t.set c v)
  | increment {c} : c ∈ t → Edit t (t.increment c)
  | decrement {c} : c ∈ t → Edit t (t.decrement c)

/-- A tape becomes another one by any number of operations. -/
def Reaches : Tape → Tape → Prop := Relation.ReflTransGen Edit

section Edits

variable {t u : Tape} {a b c d : CellId}

theorem Edit.cases (h : Edit t u) :
    u = t ∨ (∃ c f, u = t.modify c f) ∨
      (∃ c ∈ t, t.right? c = none ∧ u = t.extendRight c) ∨
      ∃ c ∈ t, t.left? c = none ∧ u = t.extendLeft c := by
  cases h with
  | @rightOf c hc =>
    cases hr : t.right? c with
    | some d => exact .inl (by rw [rightOf_of_right? hr])
    | none => exact .inr (.inr (.inl ⟨c, hc, hr, by rw [rightOf_of_none hc hr]⟩))
  | @leftOf c hc =>
    cases hl : t.left? c with
    | some d => exact .inl (by rw [leftOf_of_left? hl])
    | none => exact .inr (.inr (.inr ⟨c, hc, hl, by rw [leftOf_of_none hc hl]⟩))
  | set v hc => exact .inr (.inl ⟨_, _, rfl⟩)
  | increment hc => exact .inr (.inl ⟨_, _, rfl⟩)
  | decrement hc => exact .inr (.inl ⟨_, _, rfl⟩)

theorem Linked.edit (ht : t.Linked) (h : Edit t u) : u.Linked := by
  obtain rfl | ⟨c, f, rfl⟩ | ⟨c, hc, hr, rfl⟩ | ⟨c, hc, hl, rfl⟩ := h.cases
  · exact ht
  · exact ht.modify c f
  · exact (IsRow.extendRight ht hc hr).linked
  · exact (IsRow.extendLeft ht hc hl).linked

theorem Linked.cells_infix_of_edit (ht : t.Linked) (h : Edit t u) : t.cells <:+: u.cells := by
  obtain rfl | ⟨c, f, rfl⟩ | ⟨c, hc, hr, rfl⟩ | ⟨c, hc, hl, rfl⟩ := h.cases
  · exact List.infix_rfl
  · have hcells := ht.cells_modify c f
    exact hcells ▸ List.infix_rfl
  · rw [ht.cells_extendRight hc hr]
    exact (List.prefix_append _ _).isInfix
  · rw [ht.cells_extendLeft hc hl]
    exact (List.suffix_cons _ _).isInfix

theorem Linked.reaches (ht : t.Linked) (h : t.Reaches u) : u.Linked := by
  induction h with
  | refl => exact ht
  | tail _ he ih => exact ih.edit he

/-- A tape grows at its ends and nowhere else. -/
theorem Linked.cells_infix_of_reaches (ht : t.Linked) (h : t.Reaches u) :
    t.cells <:+: u.cells := by
  induction h with
  | refl => exact List.infix_rfl
  | tail hr he ih => exact ih.trans ((ht.reaches hr).cells_infix_of_edit he)

theorem Linked.mem_of_infix (ht : t.Linked) (hu : u.Linked) (h : t.cells <:+: u.cells)
    (hc : c ∈ t) : c ∈ u :=
  hu.mem_cells.1 (h.subset (ht.mem_cells.2 hc))

theorem Linked.right?_of_infix (ht : t.Linked) (hu : u.Linked) (h : t.cells <:+: u.cells)
    (hr : t.right? c = some d) : u.right? c = some d := by
  obtain ⟨before, after, happ⟩ := h
  obtain ⟨i, hi, hi'⟩ := ht.right?_eq_some_iff.1 hr
  refine hu.right?_eq_some_iff.2 ⟨before.length + i, ?_, ?_⟩
  · rw [← happ]
    grind
  · rw [← happ]
    grind

theorem Linked.left?_of_infix (ht : t.Linked) (hu : u.Linked) (h : t.cells <:+: u.cells)
    (hl : t.left? c = some d) : u.left? c = some d :=
  hu.right?_iff_left?.1 (ht.right?_of_infix hu h (ht.right?_iff_left?.2 hl))

theorem Linked.rightOf_mem (ht : t.Linked) (hc : c ∈ t) : (t.rightOf c).1 ∈ (t.rightOf c).2 := by
  cases hr : t.right? c with
  | some d =>
    rw [rightOf_of_right? hr]
    exact mem_of_left? (ht.right?_iff_left?.1 hr)
  | none =>
    rw [rightOf_of_none hc hr]
    exact mem_extendRight.2 (.inr rfl)

theorem Linked.leftOf_mem (ht : t.Linked) (hc : c ∈ t) : (t.leftOf c).1 ∈ (t.leftOf c).2 := by
  cases hl : t.left? c with
  | some d =>
    rw [leftOf_of_left? hl]
    exact mem_of_right? (ht.right?_iff_left?.2 hl)
  | none =>
    rw [leftOf_of_none hc hl]
    exact mem_extendLeft.2 (.inr rfl)

end Edits

/-- The links of every tape that can be reached are symmetric and make one row of all its cells,
which the walk from the left end goes through and leaves at the right end. Positions are positions
in that row, and later operations keep handles, links and the order of the row. -/
theorem links_of_reaches_fresh {t : Tape} (h : fresh.Reaches t) :
    (∀ a b, t.right? a = some b ↔ t.left? b = some a) ∧
    (t.leftmost ∈ t ∧ ∀ c ∈ t, t.left? c = none ↔ c = t.leftmost) ∧
    (∃! c, c ∈ t ∧ t.right? c = none) ∧
    (t.Yields (some t.leftmost) t.cells ∧ t.cells.head? = some t.leftmost ∧ origin ∈ t.cells ∧
      t.cells.Nodup ∧ ∀ c, c ∈ t.cells ↔ c.serial < t.size) ∧
    (Set.BijOn t.indexOf {c | c ∈ t} (Set.Iio t.size) ∧
      ∀ c ∈ t, t.cells.idxOf? c = some (t.indexOf c) ∧ t.cells[t.indexOf c]? = some c) ∧
    (∀ c ∈ t, (t.rightOf c).1 ∈ (t.rightOf c).2 ∧ (t.leftOf c).1 ∈ (t.leftOf c).2) ∧
    ∀ u, t.Reaches u → t.cells <:+: u.cells ∧ ∀ c ∈ t, c ∈ u ∧
      (∀ d, t.right? c = some d → u.right? c = some d) ∧
      ∀ d, t.left? c = some d → u.left? c = some d := by
  have ht : t.Linked := linked_fresh.reaches h
  refine ⟨fun a b => ht.right?_iff_left?, ⟨ht.leftmost_mem, fun c hc => ht.left?_eq_none_iff hc⟩,
    ht.existsUnique_right?_eq_none, ⟨ht.yields, ?_, ht.mem_cells.2 ht.origin_mem, ht.nodup,
    fun c => ht.mem_cells⟩, ⟨ht.bijOn_indexOf, fun c hc => ⟨ht.idxOf?_cells hc, ?_⟩⟩,
    fun c hc => ⟨ht.rightOf_mem hc, ht.leftOf_mem hc⟩, fun u hu => ?_⟩
  · rw [List.head?_eq_getElem?, ht.head]
  · exact ht.getElem?_cells_eq_some_iff.2 ⟨hc, rfl⟩
  · have hlinked := ht.reaches hu
    have hgrown := ht.cells_infix_of_reaches hu
    exact ⟨hgrown, fun c hc => ⟨ht.mem_of_infix hlinked hgrown hc,
      fun d hd => ht.right?_of_infix hlinked hgrown hd,
      fun d hd => ht.left?_of_infix hlinked hgrown hd⟩⟩

/-- A tape that grew to the right, then to the left, and was written to at a cell in between. -/
theorem links_of_reaches_fresh_grown :
    let t := ((fresh.rightOf origin).2.leftOf origin).2.set origin 7
    fresh.Reaches t ∧ t.right? ⟨2⟩ = some origin ∧ t.left? origin = some ⟨2⟩ := by
  have h : fresh.Reaches (((fresh.rightOf origin).2.leftOf origin).2.set origin 7) :=
    .tail (.tail (.single (.rightOf (by decide))) (.leftOf (by decide))) (.set 7 (by decide))
  exact ⟨h, by decide, ((links_of_reaches_fresh h).1 _ _).1 (by decide)⟩

end Brainfuck.Tape
