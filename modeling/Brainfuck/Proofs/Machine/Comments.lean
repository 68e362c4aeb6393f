import Brainfuck.Proofs.Machine.Loops
import Brainfuck.Proofs.Machine.Surroundings
import Brainfuck.Proofs.Program.Comments

/-!
# Machines without comments

A machine on a program without its comments does what the machine on the whole program does, except
that it does not pass over comments. What it keeps of positions are the positions without comments,
be they on the way, at the end of the program or left over from an earlier run.
-/

namespace Brainfuck.Machine

variable {m k m' k' : Machine} {p : Program} {text : String} {fuel n : Nat} {o : Outcome}

/-- The machine that is at the same instruction of the program without comments. -/
def withoutComments (m : Machine) : Machine :=
  { m with
    program := m.program.withoutComments
    ip := m.program.instructionsBefore m.ip
    loops := m.loops.map m.program.instructionsBefore }

theorem withoutComments_load (p : Program) :
    (load p).withoutComments = load p.withoutComments := rfl

theorem withoutComments_supply (m : Machine) (text : String) :
    (m.supply text).withoutComments = m.withoutComments.supply text := rfl

theorem finish_withoutComments (m : Machine) :
    m.withoutComments.finish = (m.finish.1, m.finish.2.withoutComments) := by
  cases hb : m.blocked <;> simp [finish, withoutComments, hb]

/-! ### Steps -/

theorem current?_withoutComments_of_none (h : m.current? = none) :
    m.withoutComments.current? = none := by
  apply current?_eq_none_iff.2
  exact (Program.instructionsBefore_of_size_le (current?_eq_none_iff.1 h)).ge

theorem withoutComments_pass {c : Char} (hc : m.current? = some c)
    (hd : Instruction.decode? c = none) :
    ({ m with ip := m.ip + 1 } : Machine).withoutComments = m.withoutComments := by
  have hcomment : isInstruction c = false := by rw [isInstruction, hd]; rfl
  have hip := Program.instructionsBefore_succ_of_comment hc hcomment
  simp only [withoutComments, hip]

/-- The program without comments, around a machine with this program. -/
def uncommented (p : Program) : Surroundings where
  program := p.withoutComments
  place := p.instructionsBefore

theorem withoutComments_eq_inside (m : Machine) :
    m.withoutComments = m.inside (uncommented m.program) := by
  simp [withoutComments, inside, uncommented]

theorem uncommented_admits {i : Instruction} (h : m.current? = some i.symbol) :
    (uncommented m.program).Admits m where
  current hc := by
    obtain rfl := Option.some.inj (h.symm.trans hc)
    exact Program.getElem?_withoutComments h (by simp [isInstruction])
  ended hs := by
    rw [current?_of_step_done hs] at h
    cases h
  next _ := Program.instructionsBefore_succ_of_instruction h (by simp [isInstruction])
  skip hc _ := Program.skipLoop_withoutComments hc
  below _ _ := rfl
  behind _ _ := rfl

/-- A step either passes over a comment, which the machine without comments does not notice, or it
is a step of that machine too. -/
theorem step_withoutComments (m : Machine) :
    (m.step = (.executed, { m with ip := m.ip + 1 }) ∧ m.ip < m.program.size ∧
      ({ m with ip := m.ip + 1 } : Machine).withoutComments = m.withoutComments) ∨
    m.withoutComments.step = (m.step.1, m.step.2.withoutComments) := by
  rcases m.step_cases with ⟨hb, hs⟩ | ⟨hb, hc, hs⟩ | ⟨-, ⟨c, hc, hd⟩, hs⟩ | ⟨hb, i, hi, hs⟩
  · right
    rw [hs]
    exact step_of_blocked hb
  · right
    rw [hs]
    exact step_of_current?_eq_none hb (current?_withoutComments_of_none hc)
  · left
    exact ⟨hs, ip_lt_of_current? hc, withoutComments_pass hc hd⟩
  · right
    rw [withoutComments_eq_inside, withoutComments_eq_inside, program_step]
    exact (uncommented_admits hi).step

/-! ### Runs -/

theorem run_withoutComments (h : run fuel m = some (o, m')) :
    ∃ fuel', run fuel' m.withoutComments = some (o, m'.withoutComments) := by
  induction fuel generalizing m with
  | zero => simp at h
  | succ fuel ih =>
    rw [run_succ] at h
    rcases m.step_withoutComments with ⟨hs, -, hsame⟩ | hk
    · rw [hs] at h
      rw [← hsame]
      exact ih h
    · rcases hs : m.step with ⟨_ | _ | _, m₁⟩
      · rw [hs] at h hk
        obtain ⟨fuel', hrun⟩ := ih h
        refine ⟨fuel' + 1, ?_⟩
        rw [run_succ, hk]
        exact hrun
      all_goals
        rw [hs] at h hk
        refine ⟨1, ?_⟩
        rw [run_succ, hk]
        simp only [finish_withoutComments]
        rw [Option.some.inj h]

/-- Each run without comments is one with them, since comments come to an end. -/
theorem exists_run_of_withoutComments (h : run fuel m.withoutComments = some (o, k)) :
    ∃ fuel' m', run fuel' m = some (o, m') ∧ k = m'.withoutComments := by
  induction fuel generalizing m with
  | zero => simp at h
  | succ fuel ih =>
    -- The machine with comments takes steps of its own until it is at an instruction.
    induction hleft : m.program.size - m.ip using Nat.strong_induction_on generalizing m with
    | _ left ihleft =>
      rcases m.step_withoutComments with ⟨hs, hip, hsame⟩ | hk
      · rw [← hsame] at h
        have hless : m.program.size - (m.ip + 1) < left := by omega
        obtain ⟨fuel', m', hrun, hm'⟩ := ihleft _ hless h rfl
        refine ⟨fuel' + 1, m', ?_, hm'⟩
        rw [run_succ, hs]
        exact hrun
      · rw [run_succ, hk] at h
        rcases hs : m.step with ⟨_ | _ | _, m₁⟩
        · rw [hs] at h
          obtain ⟨fuel', m', hrun, hm'⟩ := ih h
          refine ⟨fuel' + 1, m', ?_, hm'⟩
          rw [run_succ, hs]
          exact hrun
        all_goals
          rw [hs] at h
          simp only [finish_withoutComments] at h
          obtain ⟨ho, hk'⟩ := Prod.mk.inj (Option.some.inj h)
          refine ⟨1, m₁.finish.2, ?_, hk'.symm⟩
          rw [run_succ, hs, ← ho]

theorem exists_run_withoutComments_iff :
    (∃ fuel k, run fuel m.withoutComments = some (o, k)) ↔ ∃ fuel m', run fuel m = some (o, m') := by
  constructor
  · rintro ⟨fuel, k, hr⟩
    obtain ⟨fuel', m', hr', -⟩ := exists_run_of_withoutComments hr
    exact ⟨fuel', m', hr'⟩
  · rintro ⟨fuel, m', hr⟩
    obtain ⟨fuel', hr'⟩ := run_withoutComments hr
    exact ⟨fuel', _, hr'⟩

/-! ### Programs run again and again -/

/-- What a machine is after a number of runs that each complete. -/
inductive Completes (m : Machine) : Nat → Machine → Prop
  | start : Completes m 0 m
  | run {n m₁ fuel m₂} : Completes m n m₁ → Machine.run fuel m₁ = some (.completed, m₂) →
      Completes m (n + 1) m₂

theorem Completes.program_eq (h : m.Completes n m') : m'.program = m.program := by
  induction h with
  | start => rfl
  | run _ hr ih => rw [program_run hr, ih]

theorem Completes.withoutComments (h : m.Completes n m') :
    m.withoutComments.Completes n m'.withoutComments := by
  induction h with
  | start => exact .start
  | run _ hr ih =>
    obtain ⟨fuel, hrun⟩ := run_withoutComments hr
    exact .run ih hrun

theorem Completes.exists_of_withoutComments (h : m.withoutComments.Completes n k) :
    ∃ m', m.Completes n m' ∧ k = m'.withoutComments := by
  induction h with
  | start => exact ⟨m, .start, rfl⟩
  | run _ hr ih =>
    obtain ⟨m₁, hm₁, rfl⟩ := ih
    obtain ⟨fuel, m₂, hrun, hk⟩ := exists_run_of_withoutComments hr
    exact ⟨m₂, .run hm₁ hrun, hk⟩

theorem Completes.unique (h : m.Completes n m') (h' : m.Completes n k) : m' = k := by
  induction h generalizing k with
  | start =>
    cases h'
    rfl
  | run _ hr ih =>
    cases h' with
    | run h₁ hr' =>
      obtain rfl := ih h₁
      exact (run_unique hr hr').2

/-- Two machines agree but for the comments in the program of the first. -/
structure InStep (p : Program) (m k : Machine) : Prop where
  program : m.program = p
  program_eq : k.program = p.withoutComments
  tape : k.tape = m.tape
  active : k.active = m.active
  output : k.output = m.output
  input : k.input = m.input
  blocked : k.blocked = m.blocked
  ip : k.ip = p.instructionsBefore m.ip
  loops : k.loops = m.loops.map p.instructionsBefore

theorem inStep_withoutComments (m : Machine) : InStep m.program m m.withoutComments :=
  ⟨rfl, rfl, rfl, rfl, rfl, rfl, rfl, rfl, rfl⟩

/-- However often a program has completed on the same input with its comments and without them, the
machines are in step, and the next run completes, blocks or goes on forever with comments if and
only if it does without, and ends in step if it ends. -/
theorem inStep_of_completes (p : Program) (text : String) (n : Nat) :
    ((∃ m, ((load p).supply text).Completes n m) ↔
      ∃ k, ((load p.withoutComments).supply text).Completes n k) ∧
    ∀ {m k}, ((load p).supply text).Completes n m →
      ((load p.withoutComments).supply text).Completes n k →
      InStep p m k ∧
      (∀ o, (∃ fuel m', run fuel m = some (o, m')) ↔ ∃ fuel k', run fuel k = some (o, k')) ∧
      ((∀ fuel, run fuel m = none) ↔ ∀ fuel, run fuel k = none) ∧
      ∀ {fuel fuel' o o' m' k'}, run fuel m = some (o, m') → run fuel' k = some (o', k') →
        o = o' ∧ InStep p m' k' := by
  rw [← withoutComments_load, ← withoutComments_supply]
  constructor
  · constructor
    · rintro ⟨m, hm⟩
      exact ⟨_, hm.withoutComments⟩
    · rintro ⟨k, hk⟩
      obtain ⟨m, hm, -⟩ := hk.exists_of_withoutComments
      exact ⟨m, hm⟩
  · intro m k hm hk
    obtain rfl := hm.withoutComments.unique hk
    have hp : m.program = p := hm.program_eq
    refine ⟨hp ▸ m.inStep_withoutComments, ?_, ?_, ?_⟩
    · intro o
      exact exists_run_withoutComments_iff.symm
    · rw [run_eq_none_iff, run_eq_none_iff]
      simp only [exists_run_withoutComments_iff]
    · intro fuel fuel' o o' m' k' hr hr'
      obtain ⟨fuel'', hr''⟩ := run_withoutComments hr
      obtain ⟨rfl, rfl⟩ := run_unique hr'' hr'
      have hp' : m'.program = p := by rw [program_run hr, hp]
      exact ⟨rfl, hp' ▸ m'.inStep_withoutComments⟩

/-- A comment before each instruction, and a loop that is entered in each run and never closed. -/
theorem inStep_of_completes_open :
    let p : Program := ⟨#['a', '+', 'b', '[']⟩
    ∃ m k, InStep p m k ∧ m.loops = [3] ∧ k.loops = [1] ∧
      ∃ m' k', run 5 m = some (.completed, m') ∧ run 3 k = some (.completed, k') ∧
        InStep p m' k' ∧ m'.loops = [3, 3] ∧ k'.loops = [1, 1] := by
  let first (q : Program) (loops : List Nat) : Machine :=
    { load q with tape := Tape.fresh.increment Tape.origin, loops := loops }
  have hm : run 5 ((load ⟨#['a', '+', 'b', '[']⟩).supply "") =
      some (.completed, first ⟨#['a', '+', 'b', '[']⟩ [3]) := rfl
  have hk : run 3 ((load ⟨#['+', '[']⟩).supply "") =
      some (.completed, first ⟨#['+', '[']⟩ [1]) := rfl
  have hinStep := (inStep_of_completes ⟨#['a', '+', 'b', '[']⟩ "" 1).2 (.run .start hm)
    (.run .start hk)
  have hm' : run 5 (first ⟨#['a', '+', 'b', '[']⟩ [3]) = some (.completed, _) := rfl
  have hk' : run 3 (first ⟨#['+', '[']⟩ [1]) = some (.completed, _) := rfl
  exact ⟨_, _, hinStep.1, rfl, rfl, _, _, hm', hk', (hinStep.2.2.2 hm' hk').2, rfl, rfl⟩

end Brainfuck.Machine
