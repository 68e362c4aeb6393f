import Brainfuck.Machine.Basic

/-!
# Runs of a machine

A run steps a machine until it stops. A program need not stop, so a run is given the number of
steps that it may attempt, and has no answer when they are not enough. `runWith_eq_map` says that
watching a run does not change it.
-/

namespace Brainfuck.Machine

variable {σ : Type}

/-- Run a machine until it stops, showing it to an observer before every step. -/
@[specialize]
def runWith (observe : σ → Machine → σ) : Nat → σ → Machine → Option (σ × Outcome × Machine)
  | 0, _, _ => none
  | fuel + 1, seen, m =>
      let seen := observe seen m
      match m.step with
      | (.executed, m) => runWith observe fuel seen m
      | (_, m) => some (seen, m.finish)

def run (fuel : Nat) (m : Machine) : Option (Outcome × Machine) :=
  (runWith (fun _ _ => ()) fuel () m).map Prod.snd

theorem runWith_eq_map (observe : σ → Machine → σ) (fuel : Nat) (seen : σ) (m : Machine) :
    (runWith observe fuel seen m).map Prod.snd = run fuel m := by
  induction fuel generalizing seen m with
  | zero => rfl
  | succ fuel ih =>
    simp only [run, runWith]
    rcases m.step with ⟨_ | _ | _, m'⟩
    · rw [ih]
      rfl
    · rfl
    · rfl

@[simp] theorem run_zero (m : Machine) : run 0 m = none := rfl

theorem run_succ (fuel : Nat) (m : Machine) :
    run (fuel + 1) m =
      match m.step with
      | (.executed, m') => run fuel m'
      | (_, m') => some m'.finish := by
  simp only [run, runWith]
  rcases m.step with ⟨_ | _ | _, m'⟩ <;> rfl

end Brainfuck.Machine
