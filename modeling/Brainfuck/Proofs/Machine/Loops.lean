import Brainfuck.Proofs.Machine.Advance
import Brainfuck.Proofs.Machine.Rules
import Brainfuck.Proofs.Program.Nesting

/-!
# The loops of a machine

A machine keeps the loops it is in as it meets their brackets, while the program has its brackets
once and for all. Inside of the program the two agree: what the machine keeps are the brackets that
a scan from the start finds open. A machine that has left the program through a bracket that is
never closed may keep less than that, which is why the end of the program is special unless all
brackets are closed.
-/

namespace Brainfuck.Machine

variable {m m' : Machine}

/-- What is reached from a machine by steps and supplies of input. -/
inductive Pass (m : Machine) : Machine → Prop
  | start : Pass m m
  | step {k} : Pass m k → Pass m k.step.2
  | supply {k} (text : String) : Pass m k → Pass m (k.supply text)

/-- What is reached from a machine by steps, supplies of input, and runs until it stops. -/
inductive Passes (m : Machine) : Machine → Prop
  | start : Passes m m
  | step {k} : Passes m k → Passes m k.step.2
  | supply {k} (text : String) : Passes m k → Passes m (k.supply text)
  | run {fuel k o l} : Passes m k → Machine.run fuel k = some (o, l) → Passes m l

theorem Passes.advance? {k : Machine} {n : Nat} (h : m.Passes k)
    (ha : Machine.advance? n k = some m') :
    m.Passes m' := by
  refine advance?_preserves (P := m.Passes) (fun k k' hs hk => ?_) ha h
  have := hk.step
  rwa [hs] at this

theorem Pass.preserves {P : Machine → Prop} (hstep : ∀ m, P m → P m.step.2)
    (hsupply : ∀ m text, P m → P (m.supply text)) (h : m.Pass m') (hm : P m) : P m' := by
  induction h with
  | start => exact hm
  | step _ ih => exact hstep _ ih
  | supply text _ ih => exact hsupply _ text ih

theorem preserves_run {P : Machine → Prop} (hstep : ∀ m, P m → P m.step.2)
    (hfinish : ∀ m, P m → m.step.1 ≠ .executed → P m.step.2.finish.2) {fuel : Nat} {o : Outcome}
    (h : run fuel m = some (o, m')) (hm : P m) : P m' := by
  obtain ⟨n, -, m₁, ha, hs, hf⟩ := run_eq_some_iff.1 h
  have h₁ : P m₁ := by
    refine advance?_preserves (fun m m' hs hm => ?_) ha hm
    have := hstep m hm
    rwa [hs] at this
  have := hfinish m₁ h₁ hs
  rwa [hf] at this

theorem program_run {fuel : Nat} {o : Outcome} (h : run fuel m = some (o, m')) :
    m'.program = m.program := by
  apply preserves_run (P := fun k => k.program = m.program) _ _ h rfl
  · intro k hk
    rw [program_step, hk]
  · intro k hk _
    rw [program_finish, program_step, hk]

theorem Passes.preserves {P : Machine → Prop} (hstep : ∀ m, P m → P m.step.2)
    (hsupply : ∀ m text, P m → P (m.supply text))
    (hfinish : ∀ m, P m → m.step.1 ≠ .executed → P m.step.2.finish.2) (h : m.Passes m')
    (hm : P m) : P m' := by
  induction h with
  | start => exact hm
  | step _ ih => exact hstep _ ih
  | supply text _ ih => exact hsupply _ text ih
  | run _ hr ih => exact preserves_run hstep hfinish hr ih

/-! ### The invariant -/

/-- Inside of the program, and at its end if all brackets are closed, the loops are the brackets
that are open. -/
structure Nested (m : Machine) : Prop where
  ip_le : m.ip ≤ m.program.size
  loops_eq : m.ip < m.program.size ∨ m.program.Closed →
    m.loops = m.program.openBrackets m.ip

theorem nested_load (p : Program) : (load p).Nested := ⟨Nat.zero_le _, fun _ => by simp [load]⟩

theorem Nested.supply (h : m.Nested) (text : String) : (m.supply text).Nested :=
  ⟨h.ip_le, h.loops_eq⟩

theorem Nested.pass {c : Char} (h : m.Nested) (hc : m.current? = some c) (h₁ : c ≠ '[')
    (h₂ : c ≠ ']') (hp : m'.program = m.program) (hl : m'.loops = m.loops)
    (hip : m'.ip = m.ip + 1) : m'.Nested := by
  have hlt := ip_lt_of_current? hc
  refine ⟨by rw [hp, hip]; exact hlt, fun _ => ?_⟩
  rw [hp, hip, hl, Program.openBrackets_succ_of_ne hc h₁ h₂, h.loops_eq (.inl hlt)]

theorem Nested.of_executes (h : m.Nested) (he : m.Executes m') : m'.Nested := by
  have inside {c : Char} (hc : m.current? = some c) : m.loops = m.program.openBrackets m.ip :=
    h.loops_eq (.inl (ip_lt_of_current? hc))
  cases he with
  | comment hc hd =>
    refine h.pass hc ?_ ?_ rfl rfl rfl
    all_goals
      rintro rfl
      cases hd
  | skip hc hv =>
    refine ⟨Program.skipLoop_le hc, fun hin => ?_⟩
    rw [inside hc, ← Program.openBrackets_skipLoop hc hin]
  | enter hc hv =>
    refine ⟨ip_lt_of_current? hc, fun _ => ?_⟩
    rw [inside hc, Program.openBrackets_succ_of_open hc]
  | ignore hc hl =>
    refine ⟨ip_lt_of_current? hc, fun _ => ?_⟩
    rw [Program.openBrackets_succ_of_close hc, ← inside hc, hl]
    rfl
  | @close start outer hc hl =>
    obtain ⟨hs, -, hbelow, -⟩ := Program.openBrackets_eq_cons (inside hc ▸ hl)
    by_cases hv : m.value = 0
    · simp only [hv, if_true]
      refine ⟨ip_lt_of_current? hc, fun _ => ?_⟩
      rw [Program.openBrackets_succ_of_close hc, ← inside hc, hl]
      rfl
    · simp only [hv, if_false]
      exact ⟨hs.le.trans h.ip_le, fun _ => hbelow.symm⟩
  | increment hc | decrement hc | moveLeft hc | moveRight hc | output hc | input hc =>
    exact h.pass hc (by decide) (by decide) rfl rfl rfl

theorem Nested.step (h : m.Nested) : m.step.2.Nested :=
  preserves_step (fun h => ⟨h.ip_le, h.loops_eq⟩) (fun _ he => h.of_executes he) h

theorem Nested.loops_eq_nil (h : m.Nested) (hc : m.program.Closed)
    (hend : m.program.size ≤ m.ip) : m.loops = [] := by
  rw [h.loops_eq (.inr hc), Nat.le_antisymm h.ip_le hend]
  exact hc

theorem Nested.finish (h : m.Nested) (hc : m.program.Closed) (hs : m.step.1 ≠ .executed) :
    m.step.2.finish.2.Nested := by
  rcases hf : m.step.2.finish with ⟨o, m₁⟩
  rcases finish_step_cases hs hf with ⟨-, hr, rfl⟩ | ⟨-, -, rfl⟩
  · refine ⟨Nat.zero_le _, fun _ => ?_⟩
    rw [Program.openBrackets_zero]
    exact h.loops_eq_nil hc (step_eq_of_done hr).2.2
  · exact ⟨h.ip_le, h.loops_eq⟩

/-! ### Agreement of the two ways -/

/-- The loops are the open brackets, outermost first in the order of the program, and a closing
bracket that goes back to a loop is the one at which the scan from that loop ends. -/
structure LoopsAgree (m : Machine) : Prop where
  loops_eq : m.ip < m.program.size → m.loops = m.program.openBrackets m.ip
  ascending : m.ip < m.program.size → m.loops.reverse.Pairwise (· < ·)
  depth_eq : m.ip < m.program.size → m.loops.length = m.program.nesting m.ip
  popped : ∀ start outer m', m.current? = some ']' → m.loops = start :: outer →
    m.step = (.executed, m') → m.program.chars[start]? = some '[' ∧
      m.program.skipLoop start = m.ip + 1

theorem Nested.loopsAgree (h : m.Nested) : m.LoopsAgree where
  loops_eq hlt := h.loops_eq (.inl hlt)
  ascending hlt := by
    rw [h.loops_eq (.inl hlt), List.pairwise_reverse]
    exact Program.openBrackets_pairwise _ _
  depth_eq hlt := by rw [h.loops_eq (.inl hlt), Program.length_openBrackets]
  popped start outer m' hc hl _ := by
    have hopen : m.program.openBrackets m.ip = start :: outer := by
      rw [← hl, h.loops_eq (.inl (ip_lt_of_current? hc))]
    exact ⟨(Program.openBrackets_eq_cons hopen).opens, Program.skipLoop_of_openBrackets hc hopen⟩

theorem Nested.advance? {n : Nat} (h : m.Nested) (ha : Machine.advance? n m = some m') :
    m'.Nested ∧ m'.program = m.program := by
  refine advance?_preserves (P := fun k => k.Nested ∧ k.program = m.program) ?_ ha ⟨h, rfl⟩
  rintro k k' hs ⟨hk, hp⟩
  exact ⟨hk.of_executes (executes_of_step hs), (blocked_of_step_executed hs).2.2.1.trans hp⟩

theorem Nested.loops_of_completed {fuel : Nat} (h : m.Nested) (hc : m.program.Closed)
    (hr : run fuel m = some (.completed, m')) : m'.loops = [] := by
  obtain ⟨n, m₁, ha, hs, rfl⟩ := run_completed_iff.1 ⟨fuel, hr⟩
  obtain ⟨h₁, hp⟩ := h.advance? ha
  exact h₁.loops_eq_nil (hp ▸ hc) (step_eq_of_done hs).2.2

theorem Pass.nested {p : Program} (h : (load p).Pass m) : m.program = p ∧ m.Nested := by
  refine h.preserves (P := fun m => m.program = p ∧ m.Nested) ?_ ?_ ⟨rfl, nested_load p⟩
  · exact fun m hm => ⟨by rw [program_step, hm.1], hm.2.step⟩
  · exact fun m text hm => ⟨hm.1, hm.2.supply text⟩

theorem Passes.program_eq {p : Program} (h : (load p).Passes m) : m.program = p := by
  refine h.preserves (P := fun m => m.program = p) ?_ (fun m text hm => hm) ?_ rfl
  · exact fun m hm => by rw [program_step, hm]
  · intro m hm _
    rw [program_finish, program_step, hm]

theorem Passes.nested {p : Program} (hp : p.Closed) (h : (load p).Passes m) : m.Nested := by
  have key : m.program.Closed ∧ m.Nested := by
    refine h.preserves (P := fun m => m.program.Closed ∧ m.Nested) ?_ (fun m text hm => ?_) ?_
      ⟨hp, nested_load p⟩
    · exact fun m hm => ⟨by rw [program_step]; exact hm.1, hm.2.step⟩
    · exact ⟨hm.1, hm.2.supply text⟩
    · intro m hm hs
      refine ⟨?_, hm.2.finish hm.1 hs⟩
      rw [Machine.finish]
      split <;> exact (program_step m).symm ▸ hm.1
  exact key.2

/-- A machine and its program agree on the loops all through a pass over the program. When all
brackets are closed they agree through any number of passes, and each pass that completes is out of
all loops. -/
theorem loopsAgree_of_pass (p : Program) :
    (∀ m, (load p).Pass m → m.program = p ∧ m.LoopsAgree) ∧
    (p.Closed → ∀ m, (load p).Passes m → m.program = p ∧ m.LoopsAgree ∧
      ∀ fuel m', run fuel m = some (.completed, m') → m'.loops = []) := by
  constructor
  · intro m h
    obtain ⟨hp, hm⟩ := h.nested
    exact ⟨hp, hm.loopsAgree⟩
  · intro hc m h
    have hm := h.nested hc
    have hp := h.program_eq
    exact ⟨hp, hm.loopsAgree, fun fuel m' hr => hm.loops_of_completed (hp ▸ hc) hr⟩

/-- Inside of two loops, at the closing bracket of the inner one. -/
theorem loopsAgree_of_pass_inner :
    let p : Program := ⟨#['+', '[', '+', '[', '-', ']', '-', ']']⟩
    p.Closed ∧ p.openBrackets 5 = [3, 1] ∧ p.skipLoop 3 = 6 := by
  have hp : Program.Closed ⟨#['+', '[', '+', '[', '-', ']', '-', ']']⟩ := by decide
  have ha : Machine.advance? 5 (load ⟨#['+', '[', '+', '[', '-', ']', '-', ']']⟩) =
      some ⟨_, ⟨#[{ value := 1 }], Tape.origin⟩, Tape.origin, 5, [3, 1], [], "", false⟩ := rfl
  obtain ⟨-, hagree, -⟩ := (loopsAgree_of_pass _).2 hp _ (Passes.start.advance? ha)
  have hopen := (hagree.loops_eq (by decide)).symm
  have hskip := (hagree.popped 3 [1] _ rfl rfl rfl).2
  exact ⟨hp, hopen, hskip⟩

end Brainfuck.Machine
