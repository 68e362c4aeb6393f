import Brainfuck.Proofs.Machine.Printed
import Brainfuck.Proofs.Run.Transcript

/-!
# Histories of machines

The history of a machine is all that was done with it since its program was loaded, the last of it
first. Runs are in it by their single steps and by the input that they were given, so that what was
done last can be asked for. What each of these events keeps, with the way back to the start that runs
take, holds of each machine and its history.
-/

namespace Brainfuck

inductive MachineEvent where
  /-- It was stepped, when it was this machine. -/
  | stepped (m : Machine)
  | supplied (text : String)
  | replaced (p : Program)
  | reset

namespace MachineEvent

def noteStep (es : List MachineEvent) (m : Machine) : List MachineEvent := .stepped m :: es

def note (es : List MachineEvent) : RunEvent → Machine → List MachineEvent
  | .stepping, m => .stepped m :: es
  | .turned (.refilled chunk), _ => .supplied chunk :: es
  | .turned _, _ => es

end MachineEvent

open MachineEvent (note noteStep)

namespace Machine

/-- A machine comes from a program by what is in a history. -/
inductive History : List MachineEvent → Machine → Prop
  | load (p : Program) : History [] (load p)
  | setProgram {es m} (p : Program) : History es m → History (.replaced p :: es) (m.setProgram p)
  | reset {es m} : History es m → History (.reset :: es) m.reset
  | step {es m} : History es m → History (.stepped m :: es) m.step.2
  | supply {es m} (text : String) : History es m → History (.supplied text :: es) (m.supply text)
  | run {es m fuel es' o m'} : History es m →
      runWith noteStep fuel es m = some (es', o, m') → History es' m'
  | runOn {σ : Type} [InputSource σ] {es m options fuel} {source : σ} {es' fin} : History es m →
      Run.drive options note fuel es ⟨m, source, {}⟩ = some (es', fin) → History es' fin.machine

variable {m m' : Machine} {es es' : List MachineEvent}
  {P : List MachineEvent → Machine → Prop}

theorem preserves_runWith (hstep : ∀ es m, P es m → P (.stepped m :: es) m.step.2)
    (hfinish : ∀ es m, P es m → P es m.finish.2) {fuel : Nat} {o : Outcome}
    (h : runWith noteStep fuel es m = some (es', o, m')) (hm : P es m) : P es' m' := by
  induction fuel generalizing es m with
  | zero => simp [runWith] at h
  | succ fuel ih =>
    have hnext := hstep es m hm
    simp only [runWith] at h
    rcases hs : m.step with ⟨_ | _ | _, m₁⟩
    · rw [hs] at h hnext
      exact ih h hnext
    all_goals
      rw [hs] at h hnext
      obtain ⟨rfl, hend⟩ := Prod.mk.inj (Option.some.inj h)
      have hlast := hfinish _ _ hnext
      rwa [hend] at hlast

theorem preserves_drive {σ : Type} [InputSource σ]
    (hstep : ∀ es m, P es m → P (.stepped m :: es) m.step.2)
    (hsupply : ∀ es m text, P es m → P (.supplied text :: es) (m.supply text))
    (hfinish : ∀ es m, P es m → P es m.finish.2) {options : RunOptions} {fuel : Nat} {r : Run σ}
    {fin : FinishedRun σ} (h : r.drive options note fuel es = some (es', fin))
    (hr : P es r.machine) : P es' fin.machine := by
  induction fuel generalizing es r with
  | zero => simp [Run.drive] at h
  | succ fuel ih =>
    simp only [Run.drive] at h
    cases hl : r.atLimit options with
    | true =>
      rw [Run.turn_of_atLimit hl, hl] at h
      obtain ⟨rfl, rfl⟩ := Prod.mk.inj (Option.some.inj h)
      exact hr
    | false =>
      have hnext := hstep es r.machine hr
      have waits (hs : r.machine.step.1 = .blocked) :
          P (.stepped r.machine :: es) { r.machine with blocked := true } := by
        rwa [step_eq_of_blocked hs] at hnext
      rw [hl] at h
      rcases Run.turn_cases hl with
        ⟨m, hs, ht⟩ | ⟨chunk, s, hs, -, ht⟩ | ⟨s, hs, -, ht⟩ | ⟨e, s, hs, -, ht⟩ | ⟨hs, ht⟩
      · rw [hs] at hnext
        rw [ht] at h
        exact ih h hnext
      · rw [ht] at h
        exact ih h (hsupply _ { r.machine with blocked := true } chunk (waits hs))
      · rw [ht] at h
        obtain ⟨rfl, rfl⟩ := Prod.mk.inj (Option.some.inj h)
        exact waits hs
      · rw [ht] at h
        obtain ⟨rfl, rfl⟩ := Prod.mk.inj (Option.some.inj h)
        exact waits hs
      · rw [(step_eq_of_done hs).1] at hnext
        rw [ht] at h
        obtain ⟨rfl, rfl⟩ := Prod.mk.inj (Option.some.inj h)
        exact hfinish _ _ hnext

/-- What holds at the start and is kept by each event and by the way back to the start holds of each
machine with its history. -/
theorem History.preserves (hload : ∀ p, P [] (Machine.load p))
    (hset : ∀ es m p, P es m → P (.replaced p :: es) (m.setProgram p))
    (hreset : ∀ es m, P es m → P (.reset :: es) m.reset)
    (hstep : ∀ es m, P es m → P (.stepped m :: es) m.step.2)
    (hsupply : ∀ es m text, P es m → P (.supplied text :: es) (m.supply text))
    (hfinish : ∀ es m, P es m → P es m.finish.2) (h : m.History es) : P es m := by
  induction h with
  | load p => exact hload p
  | setProgram p _ ih => exact hset _ _ p ih
  | reset _ ih => exact hreset _ _ ih
  | step _ ih => exact hstep _ _ ih
  | supply text _ ih => exact hsupply _ _ text ih
  | run _ hr ih => exact preserves_runWith hstep hfinish hr ih
  | runOn _ hr ih => exact preserves_drive hstep hsupply hfinish hr ih

theorem Reachable.exists_history (h : m.Reachable) : ∃ es, m.History es := by
  induction h with
  | load p => exact ⟨[], .load p⟩
  | setProgram p _ ih =>
    obtain ⟨es, hm⟩ := ih
    exact ⟨_, .setProgram p hm⟩
  | reset _ ih =>
    obtain ⟨es, hm⟩ := ih
    exact ⟨_, .reset hm⟩
  | step _ ih =>
    obtain ⟨es, hm⟩ := ih
    exact ⟨_, .step hm⟩
  | supply text _ ih =>
    obtain ⟨es, hm⟩ := ih
    exact ⟨_, .supply text hm⟩
  | run _ hr ih =>
    obtain ⟨es, hm⟩ := ih
    rw [← runWith_eq_map noteStep _ es] at hr
    obtain ⟨⟨es', o, m'⟩, hrun, hend⟩ := Option.map_eq_some_iff.1 hr
    obtain ⟨rfl, rfl⟩ := Prod.mk.inj hend
    exact ⟨es', .run hm hrun⟩
  | runOn _ hr ih =>
    obtain ⟨es, hm⟩ := ih
    rw [← Run.map_drive_eq_runOn note _ es] at hr
    obtain ⟨⟨es', fin⟩, hdrive, rfl⟩ := Option.map_eq_some_iff.1 hr
    exact ⟨es', .runOn hm hdrive⟩

theorem History.reachable (h : m.History es) : m.Reachable := by
  induction h with
  | load p => exact .load p
  | setProgram p _ ih => exact .setProgram p ih
  | reset _ ih => exact .reset ih
  | step _ ih => exact .step ih
  | supply text _ ih => exact .supply text ih
  | run _ hr ih => exact .run ih (by rw [← runWith_eq_map noteStep, hr, Option.map_some])
  | runOn _ hr ih => exact .runOn ih (by rw [← Run.map_drive_eq_runOn note, hr, Option.map_some])

theorem reachable_iff_exists_history : m.Reachable ↔ ∃ es, m.History es :=
  ⟨Reachable.exists_history, fun ⟨_, h⟩ => h.reachable⟩

end Machine

end Brainfuck
