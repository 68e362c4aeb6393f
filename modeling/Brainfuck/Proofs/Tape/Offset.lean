import Brainfuck.Proofs.Tape.Reach

/-!
# Offsets from the origin

A linked tape is a part of a tape without ends, on which the origin is at zero. Each cell keeps its
offset while the tape grows, a neighbor is one further, and a cell that is added holds the zero that
stood for it before.
-/

namespace Brainfuck.Tape

/-- What a tape holds at each offset, zero where it does not reach. -/
def contents (t : Tape) (o : Int) : UInt8 := ((t.cellAt? o).map t.value).getD 0

section Offsets

variable {t u : Tape} {c d : CellId} {o : Int}

theorem value_of_notMem (hc : c ∉ t) : t.value c = 0 := by
  rw [value, cell?_eq_none_iff.2 hc]
  rfl

theorem Linked.offset?_eq_some_iff (ht : t.Linked) :
    t.offset? c = some o ↔ c ∈ t ∧ (t.indexOf c : Int) - t.indexOf origin = o := by
  by_cases hc : c ∈ t
  · simp [offset?, ht.idxOf?_cells hc, hc]
  · have hnone : t.cells.idxOf? c = none := by
      rw [List.idxOf?_eq_none_iff]
      exact fun hmem => hc (ht.mem_cells.1 hmem)
    simp [offset?, hnone, hc]

theorem Linked.exists_offset? (ht : t.Linked) (hc : c ∈ t) : ∃ o, t.offset? c = some o :=
  ⟨_, ht.offset?_eq_some_iff.2 ⟨hc, rfl⟩⟩

theorem Linked.cellAt?_eq_some_iff (ht : t.Linked) :
    t.cellAt? o = some c ↔ t.offset? c = some o := by
  rw [ht.offset?_eq_some_iff, cellAt?]
  cases h : o + t.indexOf origin with
  | ofNat i =>
    rw [ht.getElem?_cells_eq_some_iff]
    constructor
    · rintro ⟨hc, rfl⟩
      exact ⟨hc, by simp only [Int.ofNat_eq_natCast] at h; omega⟩
    · rintro ⟨hc, ho⟩
      exact ⟨hc, by simp only [Int.ofNat_eq_natCast] at h; omega⟩
  | negSucc i =>
    simp only [reduceCtorEq, false_iff]
    rintro ⟨-, ho⟩
    omega

theorem contents_fresh : fresh.contents = fun _ => 0 := by
  have hvalue : fresh.value origin = 0 := rfl
  funext o
  rw [contents]
  cases hc : fresh.cellAt? o with
  | none => rfl
  | some c =>
    have hmem := (linked_fresh.offset?_eq_some_iff.1 (linked_fresh.cellAt?_eq_some_iff.1 hc)).1
    obtain rfl : c = origin := by
      rw [← linked_fresh.mem_cells, cells_fresh] at hmem
      exact List.mem_singleton.1 hmem
    rw [Option.map_some, hvalue, Option.getD_some]

theorem Linked.contents_of_offset? (ht : t.Linked) (h : t.offset? c = some o) :
    t.contents o = t.value c := by
  rw [contents, ht.cellAt?_eq_some_iff.2 h]
  rfl

/-! ### Growth -/

theorem Linked.offset?_of_infix (ht : t.Linked) (hu : u.Linked) (h : t.cells <:+: u.cells)
    (hc : t.offset? c = some o) : u.offset? c = some o := by
  obtain ⟨before, after, happ⟩ := h
  have shift {d : CellId} (hd : d ∈ t) : u.indexOf d = before.length + t.indexOf d := by
    have hi := ht.getElem?_cells_eq_some_iff.2 ⟨hd, rfl⟩
    obtain ⟨hlt, -⟩ := List.getElem?_eq_some_iff.1 hi
    refine (hu.getElem?_cells_eq_some_iff.1 ?_).2
    rw [← happ, List.append_assoc, List.getElem?_append_right (by omega),
      List.getElem?_append_left (by omega), Nat.add_sub_cancel_left, hi]
  obtain ⟨hmem, ho⟩ := ht.offset?_eq_some_iff.1 hc
  refine hu.offset?_eq_some_iff.2 ⟨ht.mem_of_infix hu ⟨before, after, happ⟩ hmem, ?_⟩
  rw [shift hmem, shift ht.origin_mem]
  omega

/-- A tape that grows without a change of values holds what it held. -/
theorem Linked.contents_of_infix (ht : t.Linked) (hu : u.Linked) (h : t.cells <:+: u.cells)
    (hv : ∀ c, u.value c = t.value c) : u.contents = t.contents := by
  funext o
  cases hc : t.cellAt? o with
  | some c =>
    have ho := ht.cellAt?_eq_some_iff.1 hc
    rw [ht.contents_of_offset? ho, hu.contents_of_offset? (ht.offset?_of_infix hu h ho), hv]
  | none =>
    have hzero : t.contents o = 0 := by rw [contents, hc]; rfl
    cases hd : u.cellAt? o with
    | none => rw [hzero, contents, hd]; rfl
    | some d =>
      have hnew : d ∉ t := by
        intro hmem
        obtain ⟨o', ho'⟩ := ht.exists_offset? hmem
        have hsame := ht.offset?_of_infix hu h ho'
        obtain rfl : o' = o :=
          Option.some.inj (hsame.symm.trans (hu.cellAt?_eq_some_iff.1 hd))
        rw [ht.cellAt?_eq_some_iff.2 ho'] at hc
        cases hc
      rw [hu.contents_of_offset? (hu.cellAt?_eq_some_iff.1 hd), hv, hzero, value_of_notMem hnew]

theorem Linked.offset?_of_right? (ht : t.Linked) (hc : t.offset? c = some o)
    (h : t.right? c = some d) : t.offset? d = some (o + 1) := by
  obtain ⟨i, hi, hd⟩ := ht.right?_eq_some_iff.1 h
  obtain ⟨-, ho⟩ := ht.offset?_eq_some_iff.1 hc
  obtain ⟨-, rfl⟩ := ht.getElem?_cells_eq_some_iff.1 hi
  obtain ⟨hmem, hnext⟩ := ht.getElem?_cells_eq_some_iff.1 hd
  refine ht.offset?_eq_some_iff.2 ⟨hmem, ?_⟩
  rw [hnext]
  omega

theorem Linked.offset?_of_left? (ht : t.Linked) (hc : t.offset? c = some o)
    (h : t.left? c = some d) : t.offset? d = some (o - 1) := by
  obtain ⟨o', ho'⟩ := ht.exists_offset? (mem_of_right? (ht.right?_iff_left?.2 h))
  have hnext := ht.offset?_of_right? ho' (ht.right?_iff_left?.2 h)
  obtain rfl : o' + 1 = o := Option.some.inj (hnext.symm.trans hc)
  rw [ho', Int.add_sub_cancel]

/-! ### The operations -/

theorem value_rightOf (hc : c ∈ t) (d : CellId) : (t.rightOf c).2.value d = t.value d := by
  cases hr : t.right? c with
  | some e => rw [rightOf_of_right? hr]
  | none => rw [rightOf_of_none hc hr, value_extendRight hc]

theorem value_leftOf (hc : c ∈ t) (d : CellId) : (t.leftOf c).2.value d = t.value d := by
  cases hl : t.left? c with
  | some e => rw [leftOf_of_left? hl]
  | none => rw [leftOf_of_none hc hl, value_extendLeft hc]

theorem right?_rightOf (hc : c ∈ t) : (t.rightOf c).2.right? c = some (t.rightOf c).1 := by
  cases hr : t.right? c with
  | some e => rw [rightOf_of_right? hr, hr]
  | none => rw [rightOf_of_none hc hr, right?_extendRight hc, if_pos rfl]

theorem left?_leftOf (hc : c ∈ t) : (t.leftOf c).2.left? c = some (t.leftOf c).1 := by
  cases hl : t.left? c with
  | some e => rw [leftOf_of_left? hl, hl]
  | none => rw [leftOf_of_none hc hl, left?_extendLeft hc, if_pos rfl]

theorem Linked.contents_rightOf (ht : t.Linked) (hc : c ∈ t) :
    (t.rightOf c).2.contents = t.contents :=
  ht.contents_of_infix (ht.edit (.rightOf hc)) (ht.cells_infix_of_edit (.rightOf hc))
    (value_rightOf hc)

theorem Linked.contents_leftOf (ht : t.Linked) (hc : c ∈ t) :
    (t.leftOf c).2.contents = t.contents :=
  ht.contents_of_infix (ht.edit (.leftOf hc)) (ht.cells_infix_of_edit (.leftOf hc))
    (value_leftOf hc)

theorem Linked.offset?_rightOf (ht : t.Linked) (hc : t.offset? c = some o) :
    (t.rightOf c).2.offset? (t.rightOf c).1 = some (o + 1) := by
  have hmem := (ht.offset?_eq_some_iff.1 hc).1
  have hu := ht.edit (.rightOf hmem)
  have hgrown := ht.cells_infix_of_edit (.rightOf hmem)
  exact hu.offset?_of_right? (ht.offset?_of_infix hu hgrown hc) (right?_rightOf hmem)

theorem Linked.offset?_leftOf (ht : t.Linked) (hc : t.offset? c = some o) :
    (t.leftOf c).2.offset? (t.leftOf c).1 = some (o - 1) := by
  have hmem := (ht.offset?_eq_some_iff.1 hc).1
  have hu := ht.edit (.leftOf hmem)
  have hgrown := ht.cells_infix_of_edit (.leftOf hmem)
  exact hu.offset?_of_left? (ht.offset?_of_infix hu hgrown hc) (left?_leftOf hmem)

theorem Linked.offset?_modify (ht : t.Linked) (c d : CellId) (f : UInt8 → UInt8) :
    (t.modify c f).offset? d = t.offset? d := by
  simp only [offset?, indexOf, ht.cells_modify]

theorem Linked.contents_modify (ht : t.Linked) (hc : t.offset? c = some o) (f : UInt8 → UInt8)
    (i : Int) :
    (t.modify c f).contents i = if i = o then f (t.value c) else t.contents i := by
  have hmem := (ht.offset?_eq_some_iff.1 hc).1
  have hu := ht.modify c f
  by_cases hi : i = o
  · subst hi
    rw [if_pos rfl, hu.contents_of_offset? (by rw [ht.offset?_modify, hc]), value_modify hmem,
      if_pos rfl]
  · rw [if_neg hi]
    cases hd : t.cellAt? i with
    | some d =>
      have ho := ht.cellAt?_eq_some_iff.1 hd
      have hne : d ≠ c := by
        rintro rfl
        exact hi (Option.some.inj (ho.symm.trans hc))
      rw [hu.contents_of_offset? (by rw [ht.offset?_modify, ho]), ht.contents_of_offset? ho,
        value_modify hmem, if_neg hne]
    | none =>
      have hnone : (t.modify c f).cellAt? i = none := by
        simpa only [cellAt?, indexOf, ht.cells_modify] using hd
      rw [contents, contents, hd, hnone]
      rfl

end Offsets

end Brainfuck.Tape
