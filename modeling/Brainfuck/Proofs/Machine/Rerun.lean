import Brainfuck.Proofs.Machine.Loops
import Brainfuck.Proofs.Machine.Surroundings

/-!
# Running again

A completed run leaves the machine at the start of its program, with the loops it was still in. A
machine that begins anew has none. As long as no closing bracket reaches below the loops that were
entered since, the two run alike, and the loops that were left over stay below.
-/

namespace Brainfuck.Machine

variable {m m' e : Machine}

/-- A machine at the start of the same program, with the same tape, active cell and input. -/
def restart (m : Machine) : Machine :=
  { load m.program with tape := m.tape, active := m.active, input := m.input }

/-- A machine that goes on where an earlier one was: what that one printed comes first, and the
loops it was in lie below. -/
def onTop (m earlier : Machine) : Machine :=
  { m with loops := m.loops ++ earlier.loops, output := earlier.output ++ m.output }

theorem onTop_restart (hb : m.blocked = false) (hip : m.ip = 0) : m.restart.onTop m = m := by
  cases m
  simp_all [restart, onTop, load]

theorem nested_restart (m : Machine) : m.restart.Nested :=
  ⟨Nat.zero_le _, fun _ => by simp [restart, load]⟩

def earlier (p : Program) (e : Machine) : Surroundings where
  program := p
  loops := e.loops
  output := e.output

theorem onTop_eq_inside (m e : Machine) : m.onTop e = m.inside (earlier m.program e) := by
  simp [onTop, inside, earlier]

/-- Only a closing bracket outside of all loops could reach what lies below them. -/
theorem Nested.earlier_admits (h : m.Nested) (he : e.loops = [] ∨ m.program.Opened) :
    (earlier m.program e).Admits m where
  current hc := hc
  ended hs := current?_of_step_done hs
  next _ := rfl
  skip _ _ := rfl
  below hc hl := by
    refine he.resolve_right fun hopened => ?_
    rw [h.loops_eq (.inl (ip_lt_of_current? hc))] at hl
    exact hopened m.ip hc hl
  behind _ _ := rfl

theorem Nested.step_onTop (h : m.Nested) (he : e.loops = [] ∨ m.program.Opened) :
    (m.onTop e).step = (m.step.1, m.step.2.onTop e) := by
  rw [onTop_eq_inside, onTop_eq_inside, program_step]
  exact (h.earlier_admits he).step

theorem Nested.advance?_onTop {n : Nat} (h : m.Nested) (he : e.loops = [] ∨ m.program.Opened) :
    Machine.advance? n (m.onTop e) = (Machine.advance? n m).map (·.onTop e) := by
  induction n generalizing m with
  | zero => rfl
  | succ n ih =>
    rcases hs : m.step with ⟨_ | _ | _, m₁⟩
    · have hnext : (m.onTop e).step = (.executed, m₁.onTop e) := by rw [h.step_onTop he, hs]
      have h₁ : m₁.Nested := h.of_executes (executes_of_step hs)
      rw [advance?_succ_of_step hs, advance?_succ_of_step hnext]
      exact ih h₁ ((blocked_of_step_executed hs).2.2.1 ▸ he)
    all_goals
      have hnext := h.step_onTop (e := e) he
      rw [hs] at hnext
      rw [Machine.advance?, Machine.advance?, hs, hnext]
      rfl

theorem finish_onTop (m e : Machine) :
    (m.onTop e).finish = (m.finish.1, m.finish.2.onTop e) := by
  cases hb : m.blocked <;> simp [Machine.finish, onTop, hb]

theorem Nested.run_onTop {fuel : Nat} (h : m.Nested) (he : e.loops = [] ∨ m.program.Opened) :
    run fuel (m.onTop e) = (run fuel m).map (Prod.map id (·.onTop e)) := by
  apply run_map (P := fun k => k.Nested ∧ (e.loops = [] ∨ k.program.Opened)) _ _ _ ⟨h, he⟩
  · rintro k k' hs ⟨hk, he⟩
    exact ⟨hk.of_executes (executes_of_step hs), (blocked_of_step_executed hs).2.2.1 ▸ he⟩
  · exact fun k hk => hk.1.step_onTop hk.2
  · exact fun k => finish_onTop k e

/-- After a completed run a machine runs like one that begins anew, if it has left all loops or no
closing bracket could reach them. -/
theorem rerun_of_no_loops_or_opened {fuel : Nat} (hr : run fuel m = some (.completed, m'))
    (he : m'.loops = [] ∨ m'.program.Opened) :
    (∀ n, Machine.advance? n m' = (Machine.advance? n m'.restart).map (·.onTop m')) ∧
    ∀ fuel, run fuel m' = (run fuel m'.restart).map (Prod.map id (·.onTop m')) := by
  have hstart : m'.restart.onTop m' = m' := by
    obtain ⟨n, m₁, -, hs, rfl⟩ := run_completed_iff.1 ⟨fuel, hr⟩
    exact onTop_restart (step_eq_of_done hs).2.1 rfl
  constructor
  · intro n
    rw [← (nested_restart m').advance?_onTop he, hstart]
  · intro fuel
    rw [← (nested_restart m').run_onTop he, hstart]

/-- After a completed run a machine runs like one that begins anew on the same tape and input,
unless its program has both an opening bracket that is never closed and a closing bracket that
closes nothing: step for step it does the same, prints the same and stops in the same way. If all
brackets are closed, no loop is left over either. -/
theorem rerun_of_closed_or_opened {p : Program} (hp : p.Closed ∨ p.Opened) {fuel : Nat}
    (hm : (load p).Passes m) (hr : run fuel m = some (.completed, m')) :
    (∀ n, Machine.advance? n m' = (Machine.advance? n m'.restart).map (·.onTop m')) ∧
    (∀ fuel, run fuel m' = (run fuel m'.restart).map (Prod.map id (·.onTop m'))) ∧
    (p.Closed → m'.loops = []) := by
  have hprogram : m'.program = p := (hm.run hr).program_eq
  have hloops (hc : p.Closed) : m'.loops = [] :=
    (hm.nested hc).loops_of_completed (hm.program_eq ▸ hc) hr
  obtain ⟨hadvance, hrun⟩ := rerun_of_no_loops_or_opened hr (hp.imp hloops (hprogram ▸ id))
  exact ⟨hadvance, hrun, hloops⟩

/-- A program that reads in a loop, run to its end and then again. -/
theorem rerun_of_closed_or_opened_loop :
    let p : Program := ⟨#[',', '[', '.', '-', ']']⟩
    ∃ m, run 6 ((load p).supply "\x01b") = some (.completed, m) ∧ m.loops = [] ∧
      run 6 m = (run 6 m.restart).map (Prod.map id (·.onTop m)) := by
  have hp : Program.Closed ⟨#[',', '[', '.', '-', ']']⟩ := by decide
  have hr : run 6 ((load ⟨#[',', '[', '.', '-', ']']⟩).supply "\x01b") =
      some (.completed, ⟨⟨#[',', '[', '.', '-', ']']⟩, ⟨#[{}], Tape.origin⟩, Tape.origin, 0, [],
        ['b'], "\x01", false⟩) := rfl
  obtain ⟨-, hrun, hl⟩ := rerun_of_closed_or_opened (.inl hp) (.supply _ .start) hr
  exact ⟨_, hr, hl hp, hrun 6⟩

/-- A closing bracket that closes nothing does something in a second run, if the first one left a
loop over. -/
theorem not_rerun_of_unmatched :
    let p : Program := ⟨#[']', '+', '[']⟩
    ∃ m, run 4 (load p) = some (.completed, m) ∧
      (run 4 m).map (fun r => r.2.value) = some 1 ∧
      (run 4 m.restart).map (fun r => r.2.value) = some 2 :=
  ⟨_, rfl, rfl, rfl⟩

end Brainfuck.Machine
