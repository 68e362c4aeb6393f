import Brainfuck.Proofs.Machine.Advance
import Brainfuck.Proofs.Machine.Extent
import Brainfuck.Proofs.Machine.Sound
import Brainfuck.Proofs.Program.Straight

/-!
# Counting loops

A loop whose body is straight code, comes back to where it began and takes one from the cell there
is passed through as often as the value of that cell says. Each pass adds to the other cells what
the body adds to them, so after the last one each has been changed by a multiple of the value.
-/

namespace Brainfuck

variable {t u w : Tape} {a b : CellId} {o o' : Int} {f g : Int → UInt8}

/-- A tape has grown at its ends, the cells at the offsets have been added to, and a cell is at this
offset. -/
structure Tape.Tallies (t : Tape) (change : Int → UInt8) (o : Int) (u : Tape) (a : CellId) :
    Prop where
  linked : u.Linked
  grown : t.cells <:+: u.cells
  active_at : u.offset? a = some o
  contents_eq : ∀ i, u.contents i = t.contents i + change i

theorem Tape.Linked.tallies (ht : t.Linked) (ha : t.offset? a = some o) :
    t.Tallies (fun _ => 0) o t a where
  linked := ht
  grown := List.infix_rfl
  active_at := ha
  contents_eq _ := (UInt8.add_zero _).symm

theorem Tape.Tallies.trans (h : t.Tallies f o u a) (h' : u.Tallies g o' w b) :
    t.Tallies (fun i => f i + g i) o' w b where
  linked := h'.linked
  grown := h.grown.trans h'.grown
  active_at := h'.active_at
  contents_eq i := by rw [h'.contents_eq, h.contents_eq, UInt8.add_assoc]

namespace Machine

variable {m m' m₁ : Machine} {c : Char} {cs body : List Char} {stop n k : Nat}

/-! ### Steps that stay before a position -/

/-- A number of executed steps lead to a machine, each of them taken before a position. -/
structure Within (stop n : Nat) (m m' : Machine) : Prop where
  advance : advance? n m = some m'
  before : ∀ k < n, ∀ m₁, advance? k m = some m₁ → m₁.ip < stop

theorem within_zero (m : Machine) (stop : Nat) : Within stop 0 m m where
  advance := rfl
  before k hk := absurd hk (Nat.not_lt_zero k)

theorem within_one (hs : m.step = (.executed, m')) (hip : m.ip < stop) : Within stop 1 m m' where
  advance := advance?_one hs
  before k hk m₁ h := by
    obtain rfl : k = 0 := by omega
    obtain rfl := Option.some.inj h
    exact hip

theorem Within.trans (h : Within stop n m m₁) (h' : Within stop k m₁ m') :
    Within stop (n + k) m m' where
  advance := by rw [advance?_add h.advance, h'.advance]
  before l hl m₂ h₂ := by
    by_cases hn : l < n
    · exact h.before l hn m₂ h₂
    · obtain ⟨d, rfl⟩ := Nat.exists_eq_add_of_le (Nat.le_of_not_lt hn)
      rw [advance?_add h.advance] at h₂
      exact h'.before d (by omega) m₂ h₂

/-! ### Straight code -/

theorem write_of_isStraight (hc : m.current? = some c) (h : IsStraight c) :
    m.write = fun v => v + changeOf c := by
  by_cases hplus : c = '+'
  · subst hplus
    exact write_of_increment hc
  by_cases hminus : c = '-'
  · subst hminus
    rw [write_of_decrement hc]
    funext v
    exact UInt8.sub_eq_add_neg v 1
  have hread : c ≠ ',' := by
    rintro rfl
    exact absurd h (by decide)
  have hnothing : changeOf c = 0 := by
    unfold changeOf
    split <;> first | contradiction | rfl
  rw [write_eq_id (by simp [hc, hplus]) (by simp [hc, hminus]) (by simp [hc, hread]), hnothing]
  funext v
  exact (UInt8.add_zero v).symm

theorem exists_step_of_isStraight (hb : m.blocked = false) (hc : m.current? = some c)
    (h : IsStraight c) :
    ∃ t a, m.step = (.executed, { m with tape := t, active := a, ip := m.ip + 1 }) := by
  cases hd : Instruction.decode? c with
  | none => exact ⟨m.tape, m.active, step_of_comment hb hc hd⟩
  | some i =>
    obtain rfl := Instruction.decode?_eq_some_iff.1 hd
    rw [step_of_instruction hb hc]
    cases i with
    | increment | decrement | moveLeft | moveRight => exact ⟨_, _, rfl⟩
    | loopStart | loopEnd | output | input => exact absurd h (by decide)

theorem tallies_of_step (ht : m.tape.Linked) (ha : m.tape.offset? m.active = some o)
    (hb : m.blocked = false) (hc : m.current? = some c) (h : IsStraight c) :
    ∃ t a, m.step = (.executed, { m with tape := t, active := a, ip := m.ip + 1 }) ∧
      m.tape.Tallies (fun i => if i = o then changeOf c else 0) (o + moveOf c) t a := by
  obtain ⟨t, a, hs⟩ := exists_step_of_isStraight hb hc h
  have hmem := (ht.offset?_eq_some_iff.1 ha).1
  refine ⟨t, a, hs, ?_⟩
  rcases tape_of_step hs with ⟨hright, rfl, rfl⟩ | ⟨hleft, rfl, rfl⟩ | ⟨⟨hr, hl⟩, rfl, rfl⟩
  · obtain rfl : c = '>' := Option.some.inj (hc.symm.trans hright)
    constructor
    · exact ht.edit (.rightOf hmem)
    · exact ht.cells_infix_of_edit (.rightOf hmem)
    · exact ht.offset?_rightOf ha
    · intro i
      simp [ht.contents_rightOf hmem, changeOf]
  · obtain rfl : c = '<' := Option.some.inj (hc.symm.trans hleft)
    constructor
    · exact ht.edit (.leftOf hmem)
    · exact ht.cells_infix_of_edit (.leftOf hmem)
    · exact ht.offset?_leftOf ha
    · intro i
      simp [ht.contents_leftOf hmem, changeOf]
  · have hstill : moveOf c = 0 := by
      rw [hc, ne_eq, Option.some_inj] at hr hl
      unfold moveOf
      split <;> first | contradiction | rfl
    constructor
    · exact ht.modify m.active m.write
    · rw [ht.cells_modify]
    · rw [ht.offset?_modify, ha, hstill, Int.add_zero]
    · intro i
      rw [ht.contents_modify ha, write_of_isStraight hc h]
      split
      · rename_i hi
        rw [hi, ht.contents_of_offset? ha]
      · rw [UInt8.add_zero]

theorem exists_tallies_of_hasAt (stop : Nat) (ht : m.tape.Linked)
    (ha : m.tape.offset? m.active = some o) (hb : m.blocked = false)
    (hcs : m.program.HasAt cs m.ip) (hstraight : ∀ c ∈ cs, IsStraight c)
    (hstop : m.ip + cs.length ≤ stop) :
    ∃ t a, Within stop cs.length m { m with tape := t, active := a, ip := m.ip + cs.length } ∧
      m.tape.Tallies (fun i => netChange cs (i - o)) (o + netMove cs) t a := by
  induction cs generalizing m o with
  | nil =>
    refine ⟨m.tape, m.active, within_zero m stop, ?_⟩
    rw [netMove, Int.add_zero]
    exact ht.tallies ha
  | cons c cs ih =>
    obtain ⟨hc, hcs⟩ := Program.hasAt_cons_iff.1 hcs
    obtain ⟨hfirst, hrest⟩ := List.forall_mem_cons.1 hstraight
    rw [List.length_cons] at hstop
    obtain ⟨t, a, hs, hstep⟩ := tallies_of_step ht ha hb hc hfirst
    obtain ⟨u, b, hsteps, hend⟩ := ih (m := { m with tape := t, active := a, ip := m.ip + 1 })
      hstep.linked hstep.active_at hb hcs hrest (by show m.ip + 1 + cs.length ≤ stop; omega)
    have hone : Within stop 1 m _ := within_one hs (by omega)
    have hchange : (fun i => netChange (c :: cs) (i - o)) = fun i =>
        (if i = o then changeOf c else 0) + netChange cs (i - (o + moveOf c)) := by
      funext i
      simp only [netChange, Int.sub_eq_zero, Int.sub_sub]
    refine ⟨u, b, ?_, ?_⟩
    · rw [List.length_cons, Nat.add_comm cs.length 1, ← Nat.add_assoc]
      exact hone.trans hsteps
    · rw [hchange, netMove, ← Int.add_assoc]
      exact hstep.trans hend

/-! ### One pass through a loop -/

theorem step_of_open (hb : m.blocked = false) (hc : m.current? = some '[') (hv : m.value ≠ 0) :
    m.step = (.executed, { m with loops := m.ip :: m.loops, ip := m.ip + 1 }) :=
  (Executes.enter hc hv).step_eq hb

theorem step_of_open_zero (hb : m.blocked = false) (hc : m.current? = some '[')
    (hv : m.value = 0) : m.step = (.executed, { m with ip := m.program.skipLoop m.ip }) :=
  (Executes.skip hc hv).step_eq hb

theorem step_of_close {start : Nat} {outer : List Nat} (hb : m.blocked = false)
    (hc : m.current? = some ']') (hl : m.loops = start :: outer) :
    m.step = (.executed,
      { m with loops := outer, ip := if m.value = 0 then m.ip + 1 else start }) :=
  (Executes.close hc hl).step_eq hb

theorem exists_pass (ht : m.tape.Linked) (ha : m.tape.offset? m.active = some o)
    (hb : m.blocked = false) (hloop : m.program.HasAt ('[' :: body ++ [']']) m.ip)
    (hstraight : ∀ c ∈ body, IsStraight c) (hv : m.value ≠ 0) :
    ∃ t a, Within (m.ip + body.length + 2) (body.length + 2) m
        { m with
          tape := t
          active := a
          ip := if t.value a = 0 then m.ip + body.length + 2 else m.ip } ∧
      m.tape.Tallies (fun i => netChange body (i - o)) (o + netMove body) t a := by
  obtain ⟨hopen, hinner⟩ := Program.hasAt_cons_iff.1 hloop
  obtain ⟨hbody, hend⟩ := Program.hasAt_append_iff.1 hinner
  obtain ⟨hclose, -⟩ := Program.hasAt_cons_iff.1 hend
  have hfirst := step_of_open hb hopen hv
  obtain ⟨t, a, hsteps, htallies⟩ := exists_tallies_of_hasAt
    (m := { m with loops := m.ip :: m.loops, ip := m.ip + 1 }) (m.ip + body.length + 2)
    ht ha hb hbody hstraight (by show m.ip + 1 + body.length ≤ _; omega)
  have hlast : ({ m with
      tape := t
      active := a
      loops := m.ip :: m.loops
      ip := m.ip + 1 + body.length } : Machine).step = _ := step_of_close hb hclose rfl
  have hpass := ((within_one hfirst (by omega)).trans hsteps).trans
    (within_one hlast (by show m.ip + 1 + body.length < _; omega))
  have hlength : 1 + body.length + 1 = body.length + 2 := by omega
  have hpast : m.ip + 1 + body.length + 1 = m.ip + body.length + 2 := by omega
  rw [hlength, hpast] at hpass
  exact ⟨t, a, hpass, htallies⟩

/-! ### All passes -/

theorem ne_zero_of_toNat_eq_succ {v : UInt8} (h : v.toNat = n + 1) : v ≠ 0 := by
  intro hzero
  rw [hzero] at h
  exact absurd h (Nat.succ_ne_zero n).symm

theorem value_of_tallies (ht : m.tape.Linked) (ha : m.tape.offset? m.active = some o)
    (hcount : netChange body 0 = -1)
    (h : m.tape.Tallies (fun i => netChange body (i - o)) o t a) :
    t.value a = m.value - 1 := by
  rw [← h.linked.contents_of_offset? h.active_at, h.contents_eq, ht.contents_of_offset? ha,
    Int.sub_self, hcount, UInt8.sub_eq_add_neg]
  rfl

/-- Passes through the loop empty the cell that is counted down. -/
theorem exists_passes (ht : m.tape.Linked) (ha : m.tape.offset? m.active = some o)
    (hb : m.blocked = false) (hloop : m.program.HasAt ('[' :: body ++ [']']) m.ip)
    (hstraight : ∀ c ∈ body, IsStraight c) (hmove : netMove body = 0)
    (hcount : netChange body 0 = -1) (hv : m.value.toNat = n + 1) :
    ∃ t a, Within (m.ip + body.length + 2) ((n + 1) * (body.length + 2)) m
        { m with tape := t, active := a, ip := m.ip + body.length + 2 } ∧
      m.tape.Tallies (fun i => m.value * netChange body (i - o)) o t a := by
  induction n generalizing m with
  | zero =>
    have hone : m.value = 1 := UInt8.toNat_inj.1 hv
    obtain ⟨t, a, hpass, htallies⟩ :=
      exists_pass ht ha hb hloop hstraight (ne_zero_of_toNat_eq_succ hv)
    rw [hmove, Int.add_zero] at htallies
    have hzero : t.value a = 0 := by
      rw [value_of_tallies ht ha hcount htallies, hone]
      rfl
    rw [if_pos hzero] at hpass
    refine ⟨t, a, ?_, ?_⟩
    · rwa [Nat.zero_add, Nat.one_mul]
    · simpa only [hone, UInt8.one_mul] using htallies
  | succ n ih =>
    have hle : 1 ≤ m.value := UInt8.le_iff_toNat_le.2 (by rw [hv]; exact Nat.le_add_left 1 _)
    obtain ⟨t, a, hpass, htallies⟩ :=
      exists_pass ht ha hb hloop hstraight (ne_zero_of_toNat_eq_succ hv)
    rw [hmove, Int.add_zero] at htallies
    have hless := value_of_tallies ht ha hcount htallies
    have hleft : (t.value a).toNat = n + 1 := by
      rw [hless, UInt8.toNat_sub_of_le _ _ hle, hv]
      rfl
    rw [if_neg (ne_zero_of_toNat_eq_succ hleft)] at hpass
    obtain ⟨u, b, hpasses, hrest⟩ := ih (m := { m with tape := t, active := a })
      htallies.linked htallies.active_at hb hloop hleft
    refine ⟨u, b, ?_, ?_⟩
    · rw [Nat.succ_mul, Nat.add_comm ((n + 1) * _)]
      exact hpass.trans hpasses
    · have hsum : (fun i => m.value * netChange body (i - o)) =
          fun i => netChange body (i - o) + t.value a * netChange body (i - o) := by
        funext i
        rw [hless]
        grind
      rw [hsum]
      exact htallies.trans hrest

/-- A loop with a straight body that comes back to its cell and takes one from it is left after as
many passes as the cell counts, or skipped in one step if it counts none. By then that cell is zero,
the cells at other offsets have been added to as often, and all else is as it was. -/
theorem exists_within_of_counting (h : m.Reachable) (hb : m.blocked = false)
    (hloop : m.program.HasAt ('[' :: body ++ [']']) m.ip) (hstraight : ∀ c ∈ body, IsStraight c)
    (hmoves : body.count '>' = body.count '<') (hcount : netChange body 0 = -1) :
    ∃ t o,
      Within (m.ip + body.length + 2)
        (if m.value = 0 then 1 else m.value.toNat * (body.length + 2)) m
        { m with tape := t, ip := m.ip + body.length + 2 } ∧
      t.value m.active = 0 ∧ m.tape.offset? m.active = some o ∧
      (∀ j ≠ 0, t.contents (o + j) = m.tape.contents (o + j) + m.value * netChange body j) ∧
      ∀ c ∈ m.tape, t.offset? c = m.tape.offset? c := by
  obtain ⟨ht, hmem⟩ := h.linked
  obtain ⟨o, ha⟩ := ht.exists_offset? hmem
  by_cases hv : m.value = 0
  · obtain ⟨hopen, -⟩ := Program.hasAt_cons_iff.1 hloop
    have hskip := step_of_open_zero hb hopen hv
    rw [Program.skipLoop_of_hasAt hloop hstraight] at hskip
    refine ⟨m.tape, o, ?_, hv, ha, ?_, fun c _ => rfl⟩
    · rw [if_pos hv]
      exact within_one hskip (by omega)
    · intro j _
      rw [hv, UInt8.zero_mul, UInt8.add_zero]
  · obtain ⟨n, hn⟩ : ∃ n, m.value.toNat = n + 1 :=
      Nat.exists_eq_succ_of_ne_zero fun hzero => hv (UInt8.toNat_inj.1 hzero)
    have hmove : netMove body = 0 := by
      rw [netMove_eq_count, hmoves, Int.sub_self]
    obtain ⟨t, a, hpasses, htallies⟩ := exists_passes ht ha hb hloop hstraight hmove hcount hn
    have hoffset {c : CellId} {i : Int} (hc : m.tape.offset? c = some i) : t.offset? c = some i :=
      ht.offset?_of_infix htallies.linked htallies.grown hc
    obtain rfl : a = m.active := by
      have hfound := htallies.linked.cellAt?_eq_some_iff.2 htallies.active_at
      rw [htallies.linked.cellAt?_eq_some_iff.2 (hoffset ha)] at hfound
      exact (Option.some.inj hfound).symm
    refine ⟨t, o, ?_, ?_, ha, ?_, ?_⟩
    · rw [if_neg hv, hn]
      exact hpasses
    · rw [← htallies.linked.contents_of_offset? htallies.active_at, htallies.contents_eq,
        ht.contents_of_offset? ha, Int.sub_self, hcount]
      show m.value + m.value * -1 = 0
      grind
    · intro j _
      have hj : o + j - o = j := by omega
      rw [htallies.contents_eq, hj]
    · intro c hc
      obtain ⟨i, hi⟩ := ht.exists_offset? hc
      rw [hoffset hi, hi]

/-- A loop that moves a value to a cell that the tape does not have yet. -/
theorem exists_within_of_counting_moved :
    let m := (load ⟨#['+', '+', '[', '-', '>', '+', '<', ']']⟩).step.2.step.2
    ∃ t, advance? 12 m = some { m with tape := t, ip := 8 } ∧
      t.value Tape.origin = 0 ∧ t.contents 1 = 2 := by
  intro m
  have hm : m.Reachable := .step (.step (.load _))
  have hloop : m.program.HasAt ('[' :: ['-', '>', '+', '<'] ++ [']']) m.ip := by decide
  have hstraight : ∀ c ∈ ['-', '>', '+', '<'], IsStraight c := by simp [IsStraight]
  obtain ⟨t, o, hwithin, hzero, ho, hcontents, -⟩ :=
    exists_within_of_counting hm rfl hloop hstraight (by decide) (by decide)
  obtain rfl : 0 = o := Option.some.inj ho
  exact ⟨t, hwithin.advance, hzero, hcontents 1 (by decide)⟩

end Machine

end Brainfuck
