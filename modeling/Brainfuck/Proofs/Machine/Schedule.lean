import Brainfuck.Proofs.Machine.Advance
import Brainfuck.Proofs.Machine.Surroundings

/-!
# Schedules of input

Input may be supplied long before it is read, or piece by piece while a machine waits for it. Since
a step that executes does so in the same way with more input behind, and a step that blocks changes
nothing, the only thing that matters is which text was supplied.
-/

namespace Brainfuck.Machine

variable {m m' : Machine} {cs : List Char}

inductive Action where
  | step
  | supply (text : String)
deriving DecidableEq, Repr

/-- Carry out a schedule and count the steps that execute a character. -/
def follow : List Action → Machine → Nat × Machine
  | [], m => (0, m)
  | .supply text :: rest, m => follow rest (m.supply text)
  | .step :: rest, m =>
    match m.step with
    | (.executed, m') => ((follow rest m').1 + 1, (follow rest m').2)
    | (_, m') => follow rest m'

def supplied : List Action → String
  | [] => ""
  | .supply text :: rest => text ++ supplied rest
  | .step :: rest => supplied rest

/-- A machine with more input behind what it has. -/
def withInput (m : Machine) (cs : List Char) : Machine := { m with input := m.input ++ cs }

/-- A machine that has not found out yet whether there is input for it. -/
def unblocked (m : Machine) : Machine := { m with blocked := false }

theorem unblocked_eq (h : m.blocked = false) : m.unblocked = m := by
  cases m
  simp_all [unblocked]

def moreInput (p : Program) (cs : List Char) : Surroundings where
  program := p
  input := cs

theorem withInput_eq_inside (m : Machine) (cs : List Char) :
    m.withInput cs = m.inside (moreInput m.program cs) := by
  simp [withInput, inside, moreInput]

theorem moreInput_admits (hs : m.step.1 ≠ .blocked) (cs : List Char) :
    (moreInput m.program cs).Admits m where
  current hc := hc
  ended hdone := current?_of_step_done hdone
  next _ := rfl
  skip _ _ := rfl
  below _ _ := rfl
  behind hc hin := absurd (step_blocked_iff.2 (.inr ⟨hc, hin⟩)) hs

theorem step_withInput_of_ne (hs : m.step.1 ≠ .blocked) (cs : List Char) :
    (m.withInput cs).step = (m.step.1, m.step.2.withInput cs) := by
  rw [withInput_eq_inside, withInput_eq_inside, program_step]
  exact (moreInput_admits hs cs).step

theorem step_withInput (h : m.step = (.executed, m')) (cs : List Char) :
    (m.withInput cs).step = (.executed, m'.withInput cs) := by
  rw [step_withInput_of_ne (by rw [h]; exact Step.noConfusion), h]

/-- A schedule does to a machine what its steps would do if all its text had been there from the
start. -/
theorem advance?_follow (as : List Action) (m : Machine) :
    advance? (follow as m).1 (m.unblocked.withInput (supplied as).toList) =
      some (follow as m).2.unblocked := by
  induction as generalizing m with
  | nil => simp [follow, supplied, withInput]
  | cons a rest ih =>
    cases a with
    | supply text =>
      have hsupply : m.unblocked.withInput (text ++ supplied rest).toList =
          (m.supply text).unblocked.withInput (supplied rest).toList := by
        simp [withInput, unblocked, supply, String.toList_append]
      rw [follow, supplied, hsupply]
      exact ih (m.supply text)
    | step =>
      rw [follow, supplied]
      cases hr : m.step.1 with
      | executed =>
        have hs : m.step = (.executed, m.step.2) := Prod.ext hr rfl
        obtain ⟨hb, hb', -⟩ := blocked_of_step_executed hs
        have hnext := step_withInput hs (supplied rest).toList
        rw [hs]
        change advance? ((follow rest m.step.2).1 + 1) _ = _
        rw [unblocked_eq hb, advance?_succ_of_step hnext]
        have := ih m.step.2
        rwa [unblocked_eq hb'] at this
      | blocked =>
        rw [step_eq_of_blocked hr]
        exact ih { m with blocked := true }
      | done =>
        rw [(step_eq_of_done hr).1]
        exact ih m

/-- When input is supplied does not matter, only which: a schedule leaves a machine as the same
number of steps on all of its text does, but for whether it has found out that it waits. -/
theorem follow_of_supplied (p : Program) :
    (∀ as, advance? (follow as (load p)).1 ((load p).supply (supplied as)) =
      some { (follow as (load p)).2 with blocked := false }) ∧
    ∀ as bs, supplied as = supplied bs →
      (follow as (load p)).1 = (follow bs (load p)).1 →
      { (follow as (load p)).2 with blocked := false } =
        { (follow bs (load p)).2 with blocked := false } := by
  have key (as : List Action) : advance? (follow as (load p)).1 ((load p).supply (supplied as)) =
      some (follow as (load p)).2.unblocked := advance?_follow as (load p)
  refine ⟨key, fun as bs htext hsteps => ?_⟩
  have has := key as
  rw [htext, hsteps, key bs] at has
  exact (Option.some.inj has).symm

/-- A schedule that steps while there is no input, and one that supplies all of it at once. -/
theorem follow_of_supplied_late :
    let p : Program := ⟨#[',', '>', ',']⟩
    let late : List Action := [.step, .supply "", .step, .supply "ab", .step, .step, .step, .step]
    let early : List Action := [.supply "a", .supply "b", .step, .step, .step]
    { (follow late (load p)).2 with blocked := false } =
      { (follow early (load p)).2 with blocked := false } :=
  (follow_of_supplied _).2 _ _ (by decide) (by decide)

end Brainfuck.Machine
