import Brainfuck.Proofs.Machine.Rules

/-!
# Machines inside of larger ones

A machine can be seen inside of a larger one, which has its program as a part of another program,
with other loops below its own, a text that was printed before and input behind its own. As long as
its steps do not reach for what is around it, the larger machine takes the same ones.
-/

namespace Brainfuck

/-- What there is around a machine. -/
structure Surroundings where
  program : Program
  /-- Where in this program the positions of the machine are. -/
  place : Nat → Nat := id
  /-- The loops below those of the machine. -/
  loops : List Nat := []
  /-- What was printed before. -/
  output : String := ""
  /-- The input behind that of the machine. -/
  input : List Char := []

namespace Machine

variable {m m' : Machine} {s : Surroundings}

/-- The larger machine that a machine with these surroundings is. -/
def inside (m : Machine) (s : Surroundings) : Machine :=
  { m with
    program := s.program
    ip := s.place m.ip
    loops := m.loops.map s.place ++ s.loops
    output := s.output ++ m.output
    input := m.input ++ s.input }

end Machine

open Machine

variable {m m' : Machine} {s : Surroundings}

/-- The next step of a machine does not reach for what is around it. -/
structure Surroundings.Admits (s : Surroundings) (m : Machine) : Prop where
  current : ∀ {c}, m.current? = some c → s.program.chars[s.place m.ip]? = some c
  ended : m.step.1 = .done → s.program.chars[s.place m.ip]? = none
  next : ∀ {c}, m.current? = some c → s.place (m.ip + 1) = s.place m.ip + 1
  skip : m.current? = some '[' → m.value = 0 →
    s.program.skipLoop (s.place m.ip) = s.place (m.program.skipLoop m.ip)
  below : m.current? = some ']' → m.loops = [] → s.loops = []
  behind : m.current? = some ',' → m.input = [] → s.input = []

namespace Surroundings.Admits

theorem executes (h : s.Admits m) (he : m.Executes m') : (m.inside s).Executes (m'.inside s) := by
  have hcur {c : Char} (hc : m.current? = some c) : (m.inside s).current? = some c := h.current hc
  have hvalue : (m.inside s).value = m.value := rfl
  cases he with
  | comment hc hd =>
    simpa only [inside, h.next hc] using Executes.comment (hcur hc) hd
  | increment hc => simpa only [inside, h.next hc] using Executes.increment (hcur hc)
  | decrement hc => simpa only [inside, h.next hc] using Executes.decrement (hcur hc)
  | moveLeft hc => simpa only [inside, h.next hc] using Executes.moveLeft (hcur hc)
  | moveRight hc => simpa only [inside, h.next hc] using Executes.moveRight (hcur hc)
  | skip hc hv => simpa only [inside, h.skip hc hv] using Executes.skip (hcur hc) hv
  | enter hc hv =>
    simpa only [inside, h.next hc, List.map_cons, List.cons_append]
      using Executes.enter (hcur hc) hv
  | ignore hc hl =>
    have hl' : (m.inside s).loops = [] := by simp [inside, hl, h.below hc hl]
    simpa only [inside, h.next hc] using Executes.ignore (hcur hc) hl'
  | @close start outer hc hl =>
    have hl' : (m.inside s).loops = s.place start :: (outer.map s.place ++ s.loops) := by
      simp [inside, hl]
    have hclose := Executes.close (hcur hc) hl'
    by_cases hv : m.value = 0
    · rw [if_pos (hvalue.trans hv)] at hclose
      simpa only [inside, h.next hc, if_pos hv] using hclose
    · rw [if_neg (hvalue ▸ hv)] at hclose
      simpa only [inside, if_neg hv] using hclose
  | output hc =>
    have hprint := Executes.output (hcur hc)
    rw [hvalue] at hprint
    simpa only [inside, h.next hc, String.push_eq_append, String.append_assoc] using hprint
  | @input c rest hc hin =>
    have hin' : (m.inside s).input = c :: (rest ++ s.input) := by simp [inside, hin]
    simpa only [inside, h.next hc] using Executes.input (hcur hc) hin'

/-- The larger machine does what the machine inside of it does. -/
theorem step (h : s.Admits m) : (m.inside s).step = (m.step.1, m.step.2.inside s) := by
  cases hs : m.step.1 with
  | executed =>
    obtain ⟨hb, he⟩ := step_eq_executed_iff.1 (Prod.ext hs rfl : m.step = (.executed, m.step.2))
    exact (h.executes he).step_eq hb
  | blocked =>
    have hs' : (m.inside s).step.1 = .blocked := by
      refine step_blocked_iff.2 ((step_blocked_iff.1 hs).imp id ?_)
      rintro ⟨hc, hin⟩
      exact ⟨h.current hc, by simp [inside, hin, h.behind hc hin]⟩
    rw [step_eq_of_blocked hs, step_eq_of_blocked hs']
    rfl
  | done =>
    obtain ⟨heq, hb, -⟩ := step_eq_of_done hs
    rw [heq]
    exact step_of_current?_eq_none hb (h.ended hs)

end Surroundings.Admits

end Brainfuck
