import Brainfuck.Machine.Run

/-!
# Steps

All that a step can do is said once, by `step_cases`: nothing, pass over a comment, or execute the
instruction at the instruction pointer. The lemmas after it say which step has which result and what
a step that does not execute leaves behind.
-/

namespace Brainfuck.Machine

variable {m m' : Machine}

theorem step_of_blocked (h : m.blocked = true) : m.step = (.blocked, m) := by
  simp [step, h]

theorem step_of_current?_eq_none (hb : m.blocked = false) (h : m.current? = none) :
    m.step = (.done, m) := by
  simp [step, hb, h]

theorem step_of_comment {c : Char} (hb : m.blocked = false) (hc : m.current? = some c)
    (hd : Instruction.decode? c = none) :
    m.step = (.executed, { m with ip := m.ip + 1 }) := by
  simp [step, hb, hc, hd]

theorem step_of_instruction {i : Instruction} (hb : m.blocked = false)
    (hi : m.current? = some i.symbol) : m.step = m.execute i := by
  simp [step, hb, hi]

theorem step_cases (m : Machine) :
    (m.blocked = true ∧ m.step = (.blocked, m)) ∨
    (m.blocked = false ∧ m.current? = none ∧ m.step = (.done, m)) ∨
    (m.blocked = false ∧ (∃ c, m.current? = some c ∧ Instruction.decode? c = none) ∧
      m.step = (.executed, { m with ip := m.ip + 1 })) ∨
    (m.blocked = false ∧ ∃ i : Instruction, m.current? = some i.symbol ∧
      m.step = m.execute i) := by
  by_cases hb : m.blocked = true
  · exact .inl ⟨hb, step_of_blocked hb⟩
  · replace hb : m.blocked = false := by simpa using hb
    cases hc : m.current? with
    | none => exact .inr (.inl ⟨hb, rfl, step_of_current?_eq_none hb hc⟩)
    | some c =>
      cases hd : Instruction.decode? c with
      | none => exact .inr (.inr (.inl ⟨hb, ⟨c, rfl, hd⟩, step_of_comment hb hc hd⟩))
      | some i =>
        obtain rfl := Instruction.decode?_eq_some_iff.1 hd
        exact .inr (.inr (.inr ⟨hb, i, rfl, step_of_instruction hb hc⟩))

theorem current?_eq_none_iff : m.current? = none ↔ m.program.size ≤ m.ip := by
  simp [current?, Program.size]

theorem ip_lt_of_current? {c : Char} (h : m.current? = some c) : m.ip < m.program.size := by
  obtain ⟨hlt, -⟩ := Array.getElem?_eq_some_iff.1 h
  exact hlt

theorem execute_cases (m : Machine) (i : Instruction) :
    (i = .input ∧ m.input = [] ∧ m.execute i = (.blocked, { m with blocked := true })) ∨
    ((i = .input → m.input ≠ []) ∧ (m.execute i).1 = .executed ∧
      (m.execute i).2.blocked = m.blocked ∧ (m.execute i).2.program = m.program) := by
  cases i with
  | input =>
    cases hin : m.input with
    | nil => exact .inl ⟨rfl, rfl, by simp [execute, hin]⟩
    | cons => right; simp [execute, hin]
  | loopStart => right; by_cases hv : m.value = 0 <;> simp [execute, hv]
  | loopEnd =>
    right
    cases hl : m.loops with
    | nil => simp [execute, hl]
    | cons => by_cases hv : m.value = 0 <;> simp [execute, hl, hv]
  | increment | decrement | moveLeft | moveRight | output => right; simp [execute]

theorem step_eq_of_blocked (h : m.step.1 = .blocked) :
    m.step = (.blocked, { m with blocked := true }) := by
  rcases m.step_cases with ⟨hb, hs⟩ | ⟨-, -, hs⟩ | ⟨-, -, hs⟩ | ⟨-, i, -, hs⟩
  · rw [hs, ← hb]
  · simp [hs] at h
  · simp [hs] at h
  · rcases m.execute_cases i with ⟨-, -, he⟩ | ⟨-, he, -⟩
    · rw [hs, he]
    · simp [hs, he] at h

theorem current?_of_step_blocked (hb : m.blocked = false) (h : m.step.1 = .blocked) :
    m.current? = some ',' ∧ m.input = [] := by
  rcases m.step_cases with ⟨hb', -⟩ | ⟨-, -, hs⟩ | ⟨-, -, hs⟩ | ⟨-, i, hi, hs⟩
  · simp [hb] at hb'
  · simp [hs] at h
  · simp [hs] at h
  · rcases m.execute_cases i with ⟨rfl, hin, -⟩ | ⟨-, he, -⟩
    · exact ⟨hi, hin⟩
    · simp [hs, he] at h

theorem readsNothing_iff : m.readsNothing = true ↔ m.current? = some ',' ∧ m.input = [] := by
  simp [readsNothing, Option.bind_eq_some_iff, Instruction.decode?_eq_some_iff, Instruction.symbol]

/-- A step is refused if the machine waits, or if it is at a read with nothing to take. -/
theorem step_blocked_iff :
    m.step.1 = .blocked ↔ m.blocked = true ∨ m.current? = some ',' ∧ m.input = [] := by
  constructor
  · intro hs
    cases hb : m.blocked with
    | true => exact .inl rfl
    | false => exact .inr (current?_of_step_blocked hb hs)
  · intro h
    cases hb : m.blocked with
    | true => rw [step_of_blocked hb]
    | false =>
      obtain ⟨hc, hi⟩ := h.resolve_left (by simp [hb])
      rw [step_of_instruction (i := .input) hb hc]
      simp [execute, hi]

theorem step_eq_of_done (h : m.step.1 = .done) :
    m.step = (.done, m) ∧ m.blocked = false ∧ m.program.size ≤ m.ip := by
  rcases m.step_cases with ⟨-, hs⟩ | ⟨hb, hc, hs⟩ | ⟨-, -, hs⟩ | ⟨-, i, -, hs⟩
  · simp [hs] at h
  · exact ⟨hs, hb, current?_eq_none_iff.1 hc⟩
  · simp [hs] at h
  · rcases m.execute_cases i with ⟨-, -, he⟩ | ⟨-, he, -⟩ <;> simp [hs, he] at h

theorem current?_of_step_done (h : m.step.1 = .done) : m.current? = none :=
  current?_eq_none_iff.2 (step_eq_of_done h).2.2

theorem blocked_of_step_executed (h : m.step = (.executed, m')) :
    m.blocked = false ∧ m'.blocked = false ∧ m'.program = m.program ∧
      m.ip < m.program.size := by
  rcases m.step_cases with ⟨-, hs⟩ | ⟨-, -, hs⟩ | ⟨hb, ⟨c, hc, -⟩, hs⟩ | ⟨hb, i, hi, hs⟩
  · simp [hs] at h
  · simp [hs] at h
  · obtain rfl : _ = m' := (Prod.mk.inj (hs.symm.trans h)).2
    exact ⟨hb, hb, rfl, ip_lt_of_current? hc⟩
  · rw [hs] at h
    rcases m.execute_cases i with ⟨-, -, he⟩ | ⟨-, -, hb', hp⟩
    · simp [he] at h
    · rw [h] at hb' hp
      exact ⟨hb, hb'.trans hb, hp, ip_lt_of_current? hi⟩

@[simp] theorem program_step (m : Machine) : m.step.2.program = m.program := by
  cases h : m.step.1 with
  | executed =>
    have hs : m.step = (.executed, m.step.2) := Prod.ext h rfl
    exact (blocked_of_step_executed hs).2.2.1
  | blocked => rw [step_eq_of_blocked h]
  | done => rw [(step_eq_of_done h).1]

@[simp] theorem program_finish (m : Machine) : m.finish.2.program = m.program := by
  rw [finish]
  split <;> rfl

theorem finish_step_of_done (h : m.step.1 = .done) :
    m.step.2.finish = (.completed, { m with ip := 0 }) := by
  obtain ⟨heq, hb, -⟩ := step_eq_of_done h
  simp [heq, finish, hb]

theorem finish_step_of_blocked (h : m.step.1 = .blocked) :
    m.step.2.finish = (.blocked, { m with blocked := true }) := by
  simp [step_eq_of_blocked h, finish]

theorem finish_step_cases {o : Outcome} (hs : m.step.1 ≠ .executed)
    (hf : m.step.2.finish = (o, m')) :
    (o = .completed ∧ m.step.1 = .done ∧ m' = { m with ip := 0 }) ∨
    (o = .blocked ∧ m.step.1 = .blocked ∧ m' = { m with blocked := true }) := by
  cases hr : m.step.1 with
  | executed => exact absurd hr hs
  | done =>
    obtain ⟨rfl, rfl⟩ := Prod.mk.inj ((finish_step_of_done hr).symm.trans hf)
    exact .inl ⟨rfl, rfl, rfl⟩
  | blocked =>
    obtain ⟨rfl, rfl⟩ := Prod.mk.inj ((finish_step_of_blocked hr).symm.trans hf)
    exact .inr ⟨rfl, rfl, rfl⟩

end Brainfuck.Machine
