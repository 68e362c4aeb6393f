import Brainfuck.Proofs.Machine.Step

/-!
# Rules of execution

What executing a character makes of a machine, one rule for each way that it can go. A step that
executes is an instance of a rule and nothing else (`step_eq_executed_iff`), so that what a step does
or preserves is shown rule by rule.
-/

namespace Brainfuck.Machine

variable {m m' : Machine} {i : Instruction}

/-- By executing its next character a machine becomes this one. -/
inductive Executes (m : Machine) : Machine → Prop
  | comment {c} : m.current? = some c → Instruction.decode? c = none →
      Executes m { m with ip := m.ip + 1 }
  | increment : m.current? = some '+' →
      Executes m { m with tape := m.tape.increment m.active, ip := m.ip + 1 }
  | decrement : m.current? = some '-' →
      Executes m { m with tape := m.tape.decrement m.active, ip := m.ip + 1 }
  | moveLeft : m.current? = some '<' →
      Executes m { m with
        tape := (m.tape.leftOf m.active).2
        active := (m.tape.leftOf m.active).1
        ip := m.ip + 1 }
  | moveRight : m.current? = some '>' →
      Executes m { m with
        tape := (m.tape.rightOf m.active).2
        active := (m.tape.rightOf m.active).1
        ip := m.ip + 1 }
  /-- A loop is not entered on a zero. -/
  | skip : m.current? = some '[' → m.value = 0 →
      Executes m { m with ip := m.program.skipLoop m.ip }
  | enter : m.current? = some '[' → m.value ≠ 0 →
      Executes m { m with loops := m.ip :: m.loops, ip := m.ip + 1 }
  /-- A closing bracket does nothing outside of all loops. -/
  | ignore : m.current? = some ']' → m.loops = [] →
      Executes m { m with ip := m.ip + 1 }
  /-- The end of a loop goes back to its start unless the cell is zero. -/
  | close {start outer} : m.current? = some ']' → m.loops = start :: outer →
      Executes m { m with loops := outer, ip := if m.value = 0 then m.ip + 1 else start }
  | output : m.current? = some '.' →
      Executes m { m with output := m.output.push (Char.ofUInt8 m.value), ip := m.ip + 1 }
  | input {c rest} : m.current? = some ',' → m.input = c :: rest →
      Executes m { m with
        tape := m.tape.set m.active c.val.toUInt8
        input := rest
        ip := m.ip + 1 }

theorem executes_of_execute (hi : m.current? = some i.symbol)
    (h : m.execute i = (.executed, m')) : m.Executes m' := by
  obtain rfl : (m.execute i).2 = m' := by rw [h]
  cases i with
  | increment => exact .increment hi
  | decrement => exact .decrement hi
  | moveLeft => exact .moveLeft hi
  | moveRight => exact .moveRight hi
  | loopStart =>
    by_cases hv : m.value = 0
    · simpa only [execute, if_pos hv] using Executes.skip hi hv
    · simpa only [execute, if_neg hv] using Executes.enter hi hv
  | loopEnd =>
    cases hl : m.loops with
    | nil => simpa only [execute, hl] using Executes.ignore hi hl
    | cons start outer =>
      have hclose := Executes.close hi hl
      by_cases hv : m.value = 0
      · simpa only [execute, hl, if_pos hv] using hclose
      · simpa only [execute, hl, if_neg hv] using hclose
  | output => exact .output hi
  | input =>
    cases hin : m.input with
    | nil => simp [execute, hin] at h
    | cons c rest => simpa only [execute, hin] using Executes.input hi hin

theorem Executes.step_eq (h : m.Executes m') (hb : m.blocked = false) :
    m.step = (.executed, m') := by
  cases h with
  | comment hc hd => exact step_of_comment hb hc hd
  | increment hc => exact step_of_instruction (i := .increment) hb hc
  | decrement hc => exact step_of_instruction (i := .decrement) hb hc
  | moveLeft hc => exact step_of_instruction (i := .moveLeft) hb hc
  | moveRight hc => exact step_of_instruction (i := .moveRight) hb hc
  | skip hc hv => rw [step_of_instruction (i := .loopStart) hb hc, execute, if_pos hv]
  | enter hc hv => rw [step_of_instruction (i := .loopStart) hb hc, execute, if_neg hv]
  | ignore hc hl =>
    rw [step_of_instruction (i := .loopEnd) hb hc]
    simp only [execute, hl]
  | close hc hl =>
    rw [step_of_instruction (i := .loopEnd) hb hc]
    by_cases hv : m.value = 0 <;> simp only [execute, hl, hv, if_true, if_false]
  | output hc => exact step_of_instruction (i := .output) hb hc
  | input hc hin =>
    rw [step_of_instruction (i := .input) hb hc]
    simp only [execute, hin]

/-- A step executes by a rule, unless the machine is waiting for input. -/
theorem step_eq_executed_iff :
    m.step = (.executed, m') ↔ m.blocked = false ∧ m.Executes m' := by
  refine ⟨fun h => ?_, fun ⟨hb, h⟩ => h.step_eq hb⟩
  rcases m.step_cases with ⟨-, hs⟩ | ⟨-, -, hs⟩ | ⟨hb, ⟨c, hc, hd⟩, hs⟩ | ⟨hb, i, hi, hs⟩
  · simp [hs] at h
  · simp [hs] at h
  · obtain rfl := (Prod.mk.inj (hs.symm.trans h)).2
    exact ⟨hb, .comment hc hd⟩
  · exact ⟨hb, executes_of_execute hi (hs.symm.trans h)⟩

theorem executes_of_step (h : m.step = (.executed, m')) : m.Executes m' :=
  (step_eq_executed_iff.1 h).2

theorem preserves_step {P : Machine → Prop} (hblock : P m → P { m with blocked := true })
    (hexec : ∀ m', m.Executes m' → P m') (hm : P m) : P m.step.2 := by
  cases hs : m.step.1 with
  | executed => exact hexec _ (executes_of_step (Prod.ext hs rfl))
  | blocked =>
    rw [step_eq_of_blocked hs]
    exact hblock hm
  | done =>
    rw [(step_eq_of_done hs).1]
    exact hm

theorem Executes.output_eq (h : m.Executes m') :
    m'.output = if m.current? = some '.' then m.output.push (Char.ofUInt8 m.value)
      else m.output := by
  cases h with
  | comment hc hd =>
    have hdot : m.current? ≠ some '.' := by
      rintro hdot
      obtain rfl := Option.some.inj (hc.symm.trans hdot)
      cases hd
    rw [if_neg hdot]
  | output hc => rw [if_pos hc]
  | increment hc | decrement hc | moveLeft hc | moveRight hc | skip hc | enter hc | ignore hc
  | close hc | input hc => exact (if_neg (by simp [hc])).symm

end Brainfuck.Machine
