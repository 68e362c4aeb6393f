import Brainfuck.Proofs.Machine.History
import Brainfuck.Proofs.Tape.Endless
import Mathlib.Order.Bounds.Basic

/-!
# The extent of a tape

A history says where the active cell has been since the machine was loaded or reset, counted from
the origin, and what was written where. The tape reaches as far and no further: its ends are the least
and the greatest of these positions, and the value of a cell is what was written at its position.
`tape_of_step` says once what a step does to the tape, and so each step keeps `Spans`.
-/

namespace Brainfuck

/-! ### What histories tell -/

/-- What a step makes of the value of the active cell. -/
def Machine.write (m : Machine) (v : UInt8) : UInt8 :=
  match m.current? with
  | some '+' => v + 1
  | some '-' => v - 1
  | some ',' => (m.input.head?.map fun c => c.val.toUInt8).getD v
  | _ => v

namespace MachineEvent

/-- The machines on which a step executed a character since the machine was loaded or reset, the last
of them first. -/
def executed : List MachineEvent → List Machine
  | [] => []
  | .reset :: _ => []
  | .stepped m :: es => if m.step.1 = .executed then m :: executed es else executed es
  | .supplied _ :: es => executed es
  | .replaced _ :: es => executed es

/-- How many cells to the right of the origin the moves among these steps lead. -/
def position (ms : List Machine) : Int :=
  (ms.countP fun m => m.current? = some '>' : Int) - ms.countP fun m => m.current? = some '<'

/-- All positions that were passed on these steps, from the origin on. -/
def positions (ms : List Machine) : Set Int :=
  {o | ∃ earlier, earlier <:+ ms ∧ position earlier = o}

/-- What the writes at one position make of the zero that is there at first. -/
def written (o : Int) : List Machine → UInt8
  | [] => 0
  | m :: ms => if position ms = o then m.write (written o ms) else written o ms

variable {m : Machine} {ms : List Machine}

theorem position_cons_right (h : m.current? = some '>') : position (m :: ms) = position ms + 1 := by
  simp [position, h]
  omega

theorem position_cons_left (h : m.current? = some '<') : position (m :: ms) = position ms - 1 := by
  simp [position, h]
  omega

theorem position_cons_still (hr : m.current? ≠ some '>') (hl : m.current? ≠ some '<') :
    position (m :: ms) = position ms := by
  simp [position, hr, hl]

theorem positions_nil : positions [] = {0} := by
  ext o
  simp [positions, position, eq_comm]

theorem positions_cons : positions (m :: ms) = insert (position (m :: ms)) (positions ms) := by
  ext o
  simp only [positions, Set.mem_insert_iff, Set.mem_ofPred_eq, List.suffix_cons_iff]
  constructor
  · rintro ⟨earlier, rfl | h, rfl⟩
    · exact .inl rfl
    · exact .inr ⟨earlier, h, rfl⟩
  · rintro (rfl | ⟨earlier, h, rfl⟩)
    · exact ⟨_, .inl rfl, rfl⟩
    · exact ⟨earlier, .inr h, rfl⟩

theorem written_cons_of_write {o : Int} (h : m.write = id) :
    written o (m :: ms) = written o ms := by
  rw [written, h, id, ite_self]

theorem zero_mem_positions : (0 : Int) ∈ positions ms := ⟨[], List.nil_suffix, rfl⟩

end MachineEvent

/-! ### The ends of a tape -/

namespace Tape

variable {t : Tape} {c : CellId} {o : Int}

def first (t : Tape) : Int := -(t.indexOf origin : Int)

def last (t : Tape) : Int := t.size - 1 - t.indexOf origin

theorem Linked.offset_between (ht : t.Linked) (hc : t.offset? c = some o) :
    t.first ≤ o ∧ o ≤ t.last := by
  obtain ⟨hmem, rfl⟩ := ht.offset?_eq_some_iff.1 hc
  have hlt := ht.indexOf_lt hmem
  rw [first, last]
  omega

theorem Linked.ends_rightOf (ht : t.Linked) (hc : t.offset? c = some o) :
    (t.rightOf c).2.first = min (o + 1) t.first ∧ (t.rightOf c).2.last = max (o + 1) t.last := by
  obtain ⟨hle, hge⟩ := ht.offset_between hc
  obtain ⟨hmem, rfl⟩ := ht.offset?_eq_some_iff.1 hc
  have hlt := ht.indexOf_lt hmem
  by_cases hlast : t.indexOf c + 1 = t.size
  · obtain ⟨-, hgrows, -, hindex⟩ := ht.rightOf_of_last hmem hlast
    have hsize := hgrows.size_eq
    have horigin := hindex origin ht.origin_mem
    simp only [first, last, hsize, horigin] at hle hge ⊢
    omega
  · rw [ht.rightOf_of_not_last hmem hlast]
    simp only [first, last] at hle hge ⊢
    omega

theorem Linked.ends_leftOf (ht : t.Linked) (hc : t.offset? c = some o) :
    (t.leftOf c).2.first = min (o - 1) t.first ∧ (t.leftOf c).2.last = max (o - 1) t.last := by
  obtain ⟨hle, hge⟩ := ht.offset_between hc
  obtain ⟨hmem, rfl⟩ := ht.offset?_eq_some_iff.1 hc
  by_cases hfirst : t.indexOf c = 0
  · obtain ⟨-, hgrows, -, hindex⟩ := ht.leftOf_of_first hmem hfirst
    have hsize := hgrows.size_eq
    have horigin := hindex origin ht.origin_mem
    simp only [first, last, hsize, horigin] at hle hge ⊢
    omega
  · rw [ht.leftOf_of_not_first hmem hfirst]
    simp only [first, last] at hle hge ⊢
    omega

theorem Linked.ends_modify (ht : t.Linked) (c : CellId) (f : UInt8 → UInt8) :
    (t.modify c f).first = t.first ∧ (t.modify c f).last = t.last := by
  simp only [first, last, indexOf, ht.cells_modify, size_modify, and_self]

theorem modify_id (t : Tape) (c : CellId) : t.modify c id = t := by
  have harena : t.arena.modify c.serial (fun cell => cell) = t.arena := by
    ext1
    · simp
    · simp [Array.getElem_modify]
  exact congrArg (Tape.mk · t.leftmost) harena

end Tape

/-! ### Steps -/

open MachineEvent

namespace Machine

variable {m m' : Machine} {ms : List Machine} {es : List MachineEvent}

theorem write_of_increment (h : m.current? = some '+') : m.write = (· + 1) := by
  funext v
  simp [write, h]

theorem write_of_decrement (h : m.current? = some '-') : m.write = (· - 1) := by
  funext v
  simp [write, h]

theorem write_of_input {c : Char} {rest : List Char} (h : m.current? = some ',')
    (hin : m.input = c :: rest) : m.write = fun _ => c.val.toUInt8 := by
  funext v
  simp [write, h, hin]

theorem write_eq_id (hplus : m.current? ≠ some '+') (hminus : m.current? ≠ some '-')
    (hread : m.current? ≠ some ',') : m.write = id := by
  funext v
  unfold write
  split <;> first | contradiction | rfl

theorem write_of_move (h : m.current? = some '>' ∨ m.current? = some '<') : m.write = id := by
  rcases h with h | h <;> apply write_eq_id <;> simp [h]

theorem tape_of_step (h : m.step = (.executed, m')) :
    (m.current? = some '>' ∧ m'.active = (m.tape.rightOf m.active).1 ∧
      m'.tape = (m.tape.rightOf m.active).2) ∨
    (m.current? = some '<' ∧ m'.active = (m.tape.leftOf m.active).1 ∧
      m'.tape = (m.tape.leftOf m.active).2) ∨
    ((m.current? ≠ some '>' ∧ m.current? ≠ some '<') ∧ m'.active = m.active ∧
      m'.tape = m.tape.modify m.active m.write) := by
  have stays {c : Char} (hc : m.current? = some c) (hne : c ≠ '>' ∧ c ≠ '<') :
      m.current? ≠ some '>' ∧ m.current? ≠ some '<' := by
    rw [hc]
    exact hne.imp (mt Option.some.inj) (mt Option.some.inj)
  have leaves (hw : m.write = id) : m.tape = m.tape.modify m.active m.write := by
    rw [hw, Tape.modify_id]
  cases executes_of_step h with
  | moveRight hc => exact .inl ⟨hc, rfl, rfl⟩
  | moveLeft hc => exact .inr (.inl ⟨hc, rfl, rfl⟩)
  | increment hc => exact .inr (.inr ⟨stays hc (by decide), rfl, by rw [write_of_increment hc]; rfl⟩)
  | decrement hc => exact .inr (.inr ⟨stays hc (by decide), rfl, by rw [write_of_decrement hc]; rfl⟩)
  | input hc hin =>
    exact .inr (.inr ⟨stays hc (by decide), rfl, by rw [write_of_input hc hin]; rfl⟩)
  | comment hc hd =>
    have hne (i : Instruction) : m.current? ≠ some i.symbol := by
      rw [hc, ne_eq, Option.some_inj]
      rintro rfl
      simp at hd
    exact .inr (.inr ⟨⟨hne .moveRight, hne .moveLeft⟩, rfl,
      leaves (write_eq_id (hne .increment) (hne .decrement) (hne .input))⟩)
  | skip hc | enter hc | ignore hc | close hc | output hc =>
    have hw : m.write = id := by apply write_eq_id <;> rw [hc] <;> decide
    exact .inr (.inr ⟨stays hc (by decide), rfl, leaves hw⟩)

/-! ### Tapes and histories -/

/-- The ends of a tape are the least and the greatest position that was passed on these steps, the
active cell is at the last one, and the tape holds at each position what was written there. -/
structure Spans (ms : List Machine) (m : Machine) : Prop where
  linked : m.tape.Linked
  active_at : m.tape.offset? m.active = some (position ms)
  least : IsLeast (positions ms) m.tape.first
  greatest : IsGreatest (positions ms) m.tape.last
  contents_eq : ∀ o, m.tape.contents o = written o ms

theorem spans_load (p : Program) : Spans [] (load p) where
  linked := Tape.linked_fresh
  active_at := rfl
  least := by
    rw [positions_nil]
    exact isLeast_singleton
  greatest := by
    rw [positions_nil]
    exact isGreatest_singleton
  contents_eq o := by
    rw [load, Tape.contents_fresh]
    rfl

theorem Spans.congr (h : Spans ms m) (ht : m'.tape = m.tape) (ha : m'.active = m.active) :
    Spans ms m' := by
  obtain ⟨hl, hact, hlo, hhi, hcont⟩ := h
  rw [← ht] at hl hact hlo hhi hcont
  rw [← ha] at hact
  exact ⟨hl, hact, hlo, hhi, hcont⟩

/-- One more step is at one more position, and the ends of the tape take it in. -/
theorem Spans.cons {o : Int} (h : Spans ms m) (hpos : position (m :: ms) = o)
    (hl : m'.tape.Linked) (hact : m'.tape.offset? m'.active = some o)
    (hends : m'.tape.first = min o m.tape.first ∧ m'.tape.last = max o m.tape.last)
    (hcont : ∀ o, m'.tape.contents o = written o (m :: ms)) : Spans (m :: ms) m' where
  linked := hl
  active_at := by rw [hact, hpos]
  least := by
    rw [hends.1, positions_cons, hpos]
    exact h.least.insert o
  greatest := by
    rw [hends.2, positions_cons, hpos]
    exact h.greatest.insert o
  contents_eq := hcont

theorem Spans.step_executed (h : Spans ms m) (hs : m.step = (.executed, m')) :
    Spans (m :: ms) m' := by
  have hmem := (h.linked.offset?_eq_some_iff.1 h.active_at).1
  rcases tape_of_step hs with ⟨hc, ha, ht⟩ | ⟨hc, ha, ht⟩ | ⟨⟨hr, hl⟩, ha, ht⟩
  · apply h.cons (position_cons_right hc)
    · rw [ht]
      exact h.linked.edit (.rightOf hmem)
    · rw [ht, ha]
      exact h.linked.offset?_rightOf h.active_at
    · rw [ht]
      exact h.linked.ends_rightOf h.active_at
    · intro o
      rw [ht, h.linked.contents_rightOf hmem, h.contents_eq,
        written_cons_of_write (write_of_move (.inl hc))]
  · apply h.cons (position_cons_left hc)
    · rw [ht]
      exact h.linked.edit (.leftOf hmem)
    · rw [ht, ha]
      exact h.linked.offset?_leftOf h.active_at
    · rw [ht]
      exact h.linked.ends_leftOf h.active_at
    · intro o
      rw [ht, h.linked.contents_leftOf hmem, h.contents_eq,
        written_cons_of_write (write_of_move (.inr hc))]
  · obtain ⟨hle, hge⟩ := h.linked.offset_between h.active_at
    apply h.cons (position_cons_still hr hl)
    · rw [ht]
      exact h.linked.modify _ _
    · rw [ht, ha, h.linked.offset?_modify, h.active_at]
    · rw [ht, min_eq_right hle, max_eq_right hge]
      exact h.linked.ends_modify m.active m.write
    · intro o
      have hvalue := h.linked.contents_of_offset? h.active_at
      rw [ht, h.linked.contents_modify h.active_at, written, ← h.contents_eq]
      by_cases ho : o = position ms
      · rw [if_pos ho, if_pos ho.symm, ho, hvalue]
      · rw [if_neg ho, if_neg (Ne.symm ho)]

theorem Spans.step (h : Spans (executed es) m) : Spans (executed (.stepped m :: es)) m.step.2 := by
  rw [executed]
  cases hs : m.step.1 with
  | executed =>
    rw [if_pos rfl]
    exact h.step_executed (Prod.ext hs rfl)
  | blocked =>
    rw [if_neg (by decide), step_eq_of_blocked hs]
    exact h.congr rfl rfl
  | done =>
    rw [if_neg (by decide), (step_eq_of_done hs).1]
    exact h

theorem History.spans (h : m.History es) : Spans (executed es) m := by
  apply h.preserves (P := fun es m => Spans (executed es) m)
  · exact spans_load
  · intro es m p hm
    exact hm.congr rfl rfl
  · intro es m _
    exact spans_load _
  · intro es m hm
    exact hm.step
  · intro es m text hm
    exact hm.congr rfl rfl
  · intro es m hm
    rw [Machine.finish]
    split
    · exact hm
    · exact hm.congr rfl rfl

/-- Whatever was done with a machine, its tape has as many cells as there are numbers from the least
to the greatest position that was passed since it was loaded or reset. Counted from the least one, the
active cell is at the last position and the origin at zero, and the value of each cell is what the
writes at its position have made of zero. -/
theorem extent_of_reachable (h : m.Reachable) :
    (∃ es, m.History es) ∧ ∀ es, m.History es → ∃ lo hi,
      (IsLeast (positions (executed es)) lo ∧ IsGreatest (positions (executed es)) hi ∧
        lo ≤ 0 ∧ 0 ≤ hi) ∧
      (m.tape.size : Int) = hi - lo + 1 ∧
      (m.activeIndex : Int) = position (executed es) - lo ∧
      (m.tape.indexOf Tape.origin : Int) = -lo ∧
      (m.active = Tape.origin ↔ position (executed es) = 0) ∧
      ∀ c ∈ m.tape, m.tape.value c =
        written (m.tape.indexOf c - m.tape.indexOf Tape.origin) (executed es) := by
  refine ⟨reachable_iff_exists_history.1 h, ?_⟩
  intro es hes
  obtain ⟨hl, hact, hlo, hhi, hcont⟩ := hes.spans
  have horigin : m.tape.offset? Tape.origin = some 0 :=
    hl.offset?_eq_some_iff.2 ⟨hl.origin_mem, Int.sub_self _⟩
  have hindex := (hl.offset?_eq_some_iff.1 hact).2
  refine ⟨m.tape.first, m.tape.last, ⟨hlo, hhi, ?_, ?_⟩, ?_, ?_, ?_, ?_, ?_⟩
  · exact hlo.2 zero_mem_positions
  · exact hhi.2 zero_mem_positions
  · rw [Tape.last, Tape.first]
    omega
  · rw [activeIndex, Tape.first]
    omega
  · rw [Tape.first, Int.neg_neg]
  · constructor
    · intro ha
      rw [ha, horigin] at hact
      exact (Option.some.inj hact).symm
    · intro hzero
      rw [hzero, ← hl.cellAt?_eq_some_iff] at hact
      rw [← hl.cellAt?_eq_some_iff, hact] at horigin
      exact Option.some.inj horigin
  · intro c hc
    rw [← hcont, hl.contents_of_offset? (hl.offset?_eq hc)]

/-- The walk turns round to the left of the origin and ends to the right of it. -/
theorem extent_of_reachable_turned :
    let m := (load ⟨#['<', '+', '>', '>']⟩).step.2.step.2.step.2.step.2
    (m.tape.size = 3 ∧ m.activeIndex = 2 ∧ m.tape.indexOf Tape.origin = 1) ∧
      (∃ es, m.History es) ∧ ∀ es, m.History es →
        (IsLeast (positions (executed es)) (-1) ∧ IsGreatest (positions (executed es)) 1) ∧
          position (executed es) = 1 ∧ written (-1) (executed es) = 1 := by
  intro m
  have hsize : m.tape.size = 3 := by decide
  have hindex : m.activeIndex = 2 := by decide
  have horigin : m.tape.indexOf Tape.origin = 1 := by decide
  obtain ⟨hes, hall⟩ := extent_of_reachable (m := m) (.step (.step (.step (.step (.load _)))))
  refine ⟨⟨hsize, hindex, horigin⟩, hes, fun es hes => ?_⟩
  obtain ⟨lo, hi, ⟨hlo, hhi, -⟩, hsize', hactive, horigin', -, hvalue⟩ := hall es hes
  obtain rfl : lo = -1 := by omega
  obtain rfl : hi = 1 := by omega
  have hwritten := hvalue ⟨1⟩ (by decide)
  rw [horigin] at hwritten
  exact ⟨⟨hlo, hhi⟩, by omega, hwritten.symm⟩

end Machine

end Brainfuck
