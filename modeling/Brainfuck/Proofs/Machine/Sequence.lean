import Brainfuck.Proofs.Machine.Loops
import Brainfuck.Proofs.Machine.Surroundings
import Brainfuck.Proofs.Program.Append

/-!
# Programs in sequence

A machine with one program before another does the first one as if there was nothing behind it, as
long as the brackets of that one are closed: then it neither skips nor jumps out of it, and leaves it
at its end, in no loop. It does the second one as a machine does that has this program alone, further
on by the size of the first.
-/

namespace Brainfuck.Machine

variable {m m' m₁ : Machine} {p q : Program} {n fuel : Nat}

/-- A machine with a program behind the one it has. -/
def followedBy (m : Machine) (q : Program) : Machine :=
  { m with program := m.program ++ q }

/-- A machine with a program before the one it has, at the same character. -/
def precededBy (m : Machine) (p : Program) : Machine :=
  { m with
    program := p ++ m.program
    ip := p.size + m.ip
    loops := m.loops.map (p.size + ·) }

/-! ### The second program -/

def behind (p q : Program) : Surroundings where
  program := p ++ q
  place := (p.size + ·)

theorem precededBy_eq_inside (m : Machine) (p : Program) :
    m.precededBy p = m.inside (behind p m.program) := by
  simp [precededBy, inside, behind]

theorem behind_admits (m : Machine) (p : Program) : (behind p m.program).Admits m where
  current hc := (Program.getElem?_append_right p m.program m.ip).trans hc
  ended hs := (Program.getElem?_append_right p m.program m.ip).trans (current?_of_step_done hs)
  next _ := rfl
  skip _ _ := Program.skipLoop_append_right p m.program m.ip
  below _ _ := rfl
  behind _ _ := rfl

theorem step_precededBy (m : Machine) (p : Program) :
    (m.precededBy p).step = (m.step.1, m.step.2.precededBy p) := by
  rw [precededBy_eq_inside, precededBy_eq_inside, program_step]
  exact (m.behind_admits p).step

/-- What a run of the second program comes to when it is done behind the first. A run that completes
goes back to the start of both. -/
def endedAfter (p : Program) : Outcome × Machine → Outcome × Machine
  | (.completed, m) => (.completed, { m.precededBy p with ip := 0 })
  | (.blocked, m) => (.blocked, m.precededBy p)

theorem finish_precededBy (m : Machine) (p : Program) :
    (m.precededBy p).finish = endedAfter p m.finish := by
  cases hb : m.blocked <;> simp [finish, precededBy, endedAfter, hb]

theorem run_precededBy (fuel : Nat) (m : Machine) (p : Program) :
    run fuel (m.precededBy p) = (run fuel m).map (endedAfter p) :=
  run_map (P := fun _ => True) (fun _ _ _ _ => trivial) (fun m _ => m.step_precededBy p)
    (fun m => m.finish_precededBy p) trivial

/-! ### The first program -/

def before (p q : Program) : Surroundings where
  program := p ++ q

theorem followedBy_eq_inside (m : Machine) (q : Program) :
    m.followedBy q = m.inside (before m.program q) := by
  simp [followedBy, inside, before]

theorem before_admits (hp : m.program.Closed) (hs : m.step.1 ≠ .done) (q : Program) :
    (before m.program q).Admits m where
  current hc := (Program.getElem?_append_left (ip_lt_of_current? hc)).trans hc
  ended hdone := absurd hdone hs
  next _ := rfl
  skip hc _ := Program.skipLoop_append_left hp hc
  below _ _ := rfl
  behind _ _ := rfl

theorem step_followedBy (hp : m.program.Closed) (hs : m.step.1 ≠ .done) (q : Program) :
    (m.followedBy q).step = (m.step.1, m.step.2.followedBy q) := by
  rw [followedBy_eq_inside, followedBy_eq_inside, program_step]
  exact (before_admits hp hs q).step

theorem advance?_followedBy (hp : m.program.Closed) (h : advance? n m = some m₁) (q : Program) :
    advance? n (m.followedBy q) = some (m₁.followedBy q) := by
  induction n generalizing m with
  | zero =>
    obtain rfl := Option.some.inj h
    rfl
  | succ n ih =>
    obtain ⟨m₂, hs, h⟩ := advance?_succ_eq_some_iff.1 h
    have hnext := step_followedBy hp (by rw [hs]; exact Step.noConfusion) q
    rw [hs] at hnext
    rw [advance?_succ_of_step hnext]
    exact ih ((blocked_of_step_executed hs).2.2.1 ▸ hp) h

theorem run_followedBy_eq_none (hp : m.program.Closed) (h : run fuel m = none) (q : Program) :
    run fuel (m.followedBy q) = none := by
  induction fuel generalizing m with
  | zero => rfl
  | succ fuel ih =>
    rw [run_succ] at h
    rcases hs : m.step with ⟨_ | _ | _, m₂⟩
    · have hnext := step_followedBy hp (by rw [hs]; exact Step.noConfusion) q
      rw [hs] at h hnext
      rw [run_succ, hnext]
      exact ih ((blocked_of_step_executed hs).2.2.1 ▸ hp) h
    all_goals
      rw [hs] at h
      cases h

/-! ### From the first program to the second -/

/-- To come to the end of the first program is to come to the start of the second. -/
theorem Nested.followedBy_eq (h : m.Nested) (hp : m.program.Closed) (hs : m.step.1 = .done)
    (q : Program) :
    m.followedBy q = ({ m with ip := 0 }.setProgram q).precededBy m.program := by
  obtain ⟨-, -, hend⟩ := step_eq_of_done hs
  have hip : m.ip = m.program.size := Nat.le_antisymm h.ip_le hend
  have hloops : m.loops = [] := h.loops_eq_nil hp hend
  rw [followedBy, precededBy, setProgram]
  simp only [hloops, hip, List.map_nil, Nat.add_zero]

theorem Nested.exists_run_followedBy (h : m.Nested) (hp : m.program.Closed)
    (hr : run fuel m = some (.completed, m')) (q : Program) :
    ∃ n, ∀ fuel, run (n + fuel) (m.followedBy q) =
      (run fuel (m'.setProgram q)).map (endedAfter m.program) := by
  obtain ⟨n, m₁, ha, hs, rfl⟩ := run_completed_iff.1 ⟨fuel, hr⟩
  obtain ⟨h₁, hprogram⟩ := h.advance? ha
  refine ⟨n, ?_⟩
  intro fuel
  rw [run_of_advance? (advance?_followedBy hp ha q), h₁.followedBy_eq (hprogram ▸ hp) hs,
    run_precededBy, hprogram]

/-- Where a run of the second of two programs has left a machine that has it alone, and where a run of
both of them has, if they ended in this way. -/
structure InSequence (p : Program) (o : Outcome) (k m : Machine) : Prop where
  program_eq : m.program = p ++ k.program
  tape_eq : m.tape = k.tape
  active_eq : m.active = k.active
  output_eq : m.output = k.output
  input_eq : m.input = k.input
  blocked_eq : m.blocked = k.blocked
  ip_eq : m.ip = match o with
    | .completed => 0
    | .blocked => p.size + k.ip
  loops_eq : m.loops = k.loops.map (p.size + ·)

theorem inSequence_iff {o : Outcome} {k : Machine} :
    InSequence p o k m ↔ (o, m) = endedAfter p (o, k) := by
  cases o
  all_goals
    constructor
    · intro h
      obtain ⟨h₁, h₂, h₃, h₄, h₅, h₆, h₇, h₈⟩ := h
      cases m
      simp_all [endedAfter, precededBy]
    · intro h
      obtain rfl := (Prod.mk.inj h).2
      exact ⟨rfl, rfl, rfl, rfl, rfl, rfl, rfl, rfl⟩

/-- If the brackets of a program are closed, a run of it and another one behind it comes to what a run
of the first and then one of the second, put in its place, come to: it ends exactly if they do, in the
same way, with the positions in the second program moved by the size of the first. If the first one
blocks then so do both, and if it never ends then neither do both. -/
theorem run_append_of_closed {p : Program} (hp : p.Closed) (q : Program) (text : String) :
    let first := (load p).supply text
    let both := (load (p ++ q)).supply text
    (∀ fuel m, run fuel first = some (.completed, m) →
      (∀ o w, (∃ fuel, run fuel both = some (o, w)) ↔
        ∃ fuel k, run fuel (m.setProgram q) = some (o, k) ∧ InSequence p o k w) ∧
      ((∀ fuel, run fuel both = none) ↔ ∀ fuel, run fuel (m.setProgram q) = none)) ∧
    (∀ fuel m, run fuel first = some (.blocked, m) →
      ∃ fuel', run fuel' both = some (.blocked, { m with program := p ++ q })) ∧
    ((∀ fuel, run fuel first = none) → ∀ fuel, run fuel both = none) := by
  intro first both
  have hfirst : first.Nested := (nested_load p).supply text
  have hboth : first.followedBy q = both := rfl
  refine ⟨?_, ?_, ?_⟩
  · intro fuel m hr
    obtain ⟨n, hn⟩ := hfirst.exists_run_followedBy hp hr q
    rw [hboth] at hn
    have hends (o : Outcome) (w : Machine) : (∃ fuel, run fuel both = some (o, w)) ↔
        ∃ fuel k, run fuel (m.setProgram q) = some (o, k) ∧ InSequence p o k w := by
      constructor
      · rintro ⟨fuel, hw⟩
        have hmore : run (n + fuel) both = some (o, w) := run_mono hw (Nat.le_add_left fuel n)
        rw [hn] at hmore
        obtain ⟨⟨o', k⟩, hk, hend⟩ := Option.map_eq_some_iff.1 hmore
        obtain rfl : o' = o := by
          cases o' <;> exact congrArg Prod.fst hend
        exact ⟨fuel, k, hk, inSequence_iff.2 hend.symm⟩
      · rintro ⟨fuel, k, hk, hw⟩
        refine ⟨n + fuel, ?_⟩
        rw [hn, hk, inSequence_iff.1 hw]
        rfl
    refine ⟨hends, ?_⟩
    rw [run_eq_none_iff, run_eq_none_iff]
    constructor
    · rintro hnot o ⟨fuel, k, hk⟩
      have hw : InSequence p o k (endedAfter p (o, k)).2 := by
        apply inSequence_iff.2
        cases o <;> rfl
      obtain ⟨fuel', hboth⟩ := (hends o _).2 ⟨fuel, k, hk, hw⟩
      exact hnot o ⟨fuel', _, hboth⟩
    · rintro hnot o ⟨fuel, w, hboth⟩
      obtain ⟨fuel', k, hk, -⟩ := (hends o w).1 ⟨fuel, hboth⟩
      exact hnot o ⟨fuel', k, hk⟩
  · intro fuel m hr
    obtain ⟨n, m₁, ha, hs, rfl⟩ := run_blocked_iff.1 ⟨fuel, hr⟩
    have hprogram : m₁.program = p := (hfirst.advance? ha).2
    have hs' := step_followedBy (hprogram ▸ hp) (by rw [hs]; exact Step.noConfusion) q
    apply run_blocked_iff.2
    refine ⟨n, m₁.followedBy q, advance?_followedBy hp ha q, ?_, ?_⟩
    · rw [hs', hs]
    · rw [followedBy, hprogram]
  · intro hnone fuel
    exact run_followedBy_eq_none hp (hnone fuel) q

/-- A program that leaves a loop on a cell to the right of the origin, and one that closes what is not
open and then waits. -/
theorem run_append_of_closed_waiting :
    let p : Program := ⟨#['+', '[', '>', ']']⟩
    let q : Program := ⟨#[']', ',']⟩
    ∃ m k w fuel, p.Closed ∧ run 5 ((load p).supply "") = some (.completed, m) ∧
      run 2 (m.setProgram q) = some (.blocked, k) ∧ k.ip = 1 ∧
      run fuel ((load (p ++ q)).supply "") = some (.blocked, w) ∧ w.ip = 5 ∧ w.tape = k.tape ∧
      w.active = ⟨1⟩ := by
  intro p q
  have hp : p.Closed := by decide
  have hm : ∃ m, run 5 ((load p).supply "") = some (.completed, m) ∧
      ∃ k, run 2 (m.setProgram q) = some (.blocked, k) ∧ k.ip = 1 ∧ k.active = ⟨1⟩ :=
    ⟨_, rfl, _, rfl, rfl, rfl⟩
  obtain ⟨m, hm, k, hk, hip, hactive⟩ := hm
  obtain ⟨hsequel, -, -⟩ := run_append_of_closed hp q ""
  have hw : InSequence p .blocked k (k.precededBy p) := ⟨rfl, rfl, rfl, rfl, rfl, rfl, rfl, rfl⟩
  obtain ⟨fuel, hboth⟩ := ((hsequel 5 m hm).1 .blocked _).2 ⟨2, k, hk, hw⟩
  refine ⟨m, k, _, fuel, hp, hm, hk, hip, hboth, ?_, rfl, hactive⟩
  rw [hw.ip_eq, hip]
  rfl

end Brainfuck.Machine
