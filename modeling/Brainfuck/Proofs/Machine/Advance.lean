import Brainfuck.Proofs.Machine.Step

/-!
# Advancing a machine

`advance?` takes a number of steps that all execute a character. A run is such an advance and one
step more, which does not execute, and so the amount of fuel does not matter once it is enough.
-/

namespace Brainfuck.Machine

variable {m m' m₁ : Machine} {n k : Nat} {o : Outcome}

/-- A machine after a number of steps, if each of them executes a character. -/
def advance? : Nat → Machine → Option Machine
  | 0, m => some m
  | n + 1, m =>
    match m.step with
    | (.executed, m') => advance? n m'
    | _ => none

@[simp] theorem advance?_zero (m : Machine) : advance? 0 m = some m := rfl

theorem advance?_succ_of_step (h : m.step = (.executed, m')) :
    advance? (n + 1) m = advance? n m' := by
  rw [advance?, h]

theorem advance?_one (h : m.step = (.executed, m')) : advance? 1 m = some m' := by
  rw [advance?_succ_of_step h, advance?_zero]

theorem advance?_succ_eq_some_iff :
    advance? (n + 1) m = some m' ↔
      ∃ m₁, m.step = (.executed, m₁) ∧ advance? n m₁ = some m' := by
  rcases hs : m.step with ⟨_ | _ | _, m₁⟩ <;> simp [advance?, hs]

theorem advance?_add (h : advance? n m = some m₁) : advance? (n + k) m = advance? k m₁ := by
  induction n generalizing m with
  | zero =>
    obtain rfl := Option.some.inj h
    rw [Nat.zero_add]
  | succ n ih =>
    obtain ⟨m₂, hs, h⟩ := advance?_succ_eq_some_iff.1 h
    rw [Nat.add_right_comm, advance?_succ_of_step hs, ih h]

theorem advance?_preserves {P : Machine → Prop}
    (hP : ∀ m m', m.step = (.executed, m') → P m → P m') (h : advance? n m = some m')
    (hm : P m) : P m' := by
  induction n generalizing m with
  | zero =>
    obtain rfl := Option.some.inj h
    exact hm
  | succ n ih =>
    obtain ⟨m₁, hs, h⟩ := advance?_succ_eq_some_iff.1 h
    exact ih h (hP m m₁ hs hm)

theorem run_eq_some_iff {fuel : Nat} :
    run fuel m = some (o, m') ↔
      ∃ n < fuel, ∃ m₁, advance? n m = some m₁ ∧ m₁.step.1 ≠ .executed ∧
        m₁.step.2.finish = (o, m') := by
  induction fuel generalizing m with
  | zero => simp
  | succ fuel ih =>
    rw [run_succ]
    rcases hs : m.step with ⟨_ | _ | _, m₂⟩
    · simp only [ih]
      constructor
      · rintro ⟨n, hn, m₁, ha, hstop, hf⟩
        exact ⟨n + 1, by omega, m₁, by rw [advance?_succ_of_step hs, ha], hstop, hf⟩
      · rintro ⟨n, hn, m₁, ha, hstop, hf⟩
        cases n with
        | zero =>
          obtain rfl := Option.some.inj ha
          simp [hs] at hstop
        | succ n =>
          rw [advance?_succ_of_step hs] at ha
          exact ⟨n, by omega, m₁, ha, hstop, hf⟩
    all_goals
      constructor
      · intro h
        exact ⟨0, by omega, m, rfl, by simp [hs], by rw [hs]; exact Option.some.inj h⟩
      · rintro ⟨n, -, m₁, ha, -, hf⟩
        cases n with
        | zero =>
          obtain rfl := Option.some.inj ha
          rw [hs] at hf
          exact congrArg some hf
        | succ n =>
          obtain ⟨m₃, h₃, -⟩ := advance?_succ_eq_some_iff.1 ha
          simp [hs] at h₃

theorem run_mono {fuel fuel' : Nat} (h : run fuel m = some (o, m')) (hle : fuel ≤ fuel') :
    run fuel' m = some (o, m') := by
  obtain ⟨n, hn, hend⟩ := run_eq_some_iff.1 h
  exact run_eq_some_iff.2 ⟨n, by omega, hend⟩

theorem run_of_advance? {fuel : Nat} (h : advance? n m = some m₁) : run (n + fuel) m = run fuel m₁ := by
  induction n generalizing m with
  | zero =>
    obtain rfl := Option.some.inj h
    rw [Nat.zero_add]
  | succ n ih =>
    obtain ⟨m₂, hs, h⟩ := advance?_succ_eq_some_iff.1 h
    rw [Nat.add_right_comm, run_succ, hs]
    exact ih h

/-- A run of a machine that takes the steps of another one, as long as both keep to it, is a run of
that one. -/
theorem run_map {P : Machine → Prop} {f : Machine → Machine}
    {g : Outcome × Machine → Outcome × Machine} {fuel : Nat}
    (hP : ∀ m m', m.step = (.executed, m') → P m → P m')
    (hstep : ∀ m, P m → (f m).step = (m.step.1, f m.step.2))
    (hfinish : ∀ m, (f m).finish = g m.finish) (hm : P m) :
    run fuel (f m) = (run fuel m).map g := by
  induction fuel generalizing m with
  | zero => rfl
  | succ fuel ih =>
    rw [run_succ, run_succ, hstep m hm]
    rcases hs : m.step with ⟨_ | _ | _, m₂⟩
    · exact ih (hP m m₂ hs hm)
    · exact congrArg some (hfinish m₂)
    · exact congrArg some (hfinish m₂)

theorem run_completed_iff :
    (∃ fuel, run fuel m = some (.completed, m')) ↔
      ∃ n m₁, advance? n m = some m₁ ∧ m₁.step.1 = .done ∧ m' = { m₁ with ip := 0 } := by
  constructor
  · rintro ⟨fuel, h⟩
    obtain ⟨n, -, m₁, ha, hs, hf⟩ := run_eq_some_iff.1 h
    rcases finish_step_cases hs hf with ⟨-, hr, hm'⟩ | ⟨ho, -⟩
    · exact ⟨n, m₁, ha, hr, hm'⟩
    · cases ho
  · rintro ⟨n, m₁, ha, hr, rfl⟩
    exact ⟨n + 1, run_eq_some_iff.2
      ⟨n, Nat.lt_succ_self n, m₁, ha, by simp [hr], finish_step_of_done hr⟩⟩

theorem run_blocked_iff :
    (∃ fuel, run fuel m = some (.blocked, m')) ↔
      ∃ n m₁, advance? n m = some m₁ ∧ m₁.step.1 = .blocked ∧
        m' = { m₁ with blocked := true } := by
  constructor
  · rintro ⟨fuel, h⟩
    obtain ⟨n, -, m₁, ha, hs, hf⟩ := run_eq_some_iff.1 h
    rcases finish_step_cases hs hf with ⟨ho, -⟩ | ⟨-, hr, hm'⟩
    · cases ho
    · exact ⟨n, m₁, ha, hr, hm'⟩
  · rintro ⟨n, m₁, ha, hr, rfl⟩
    exact ⟨n + 1, run_eq_some_iff.2
      ⟨n, Nat.lt_succ_self n, m₁, ha, by simp [hr], finish_step_of_blocked hr⟩⟩

theorem advance?_split {m₂ : Machine} (h : advance? k m = some m₂) (h₁ : advance? n m = some m₁)
    (hs : m₁.step.1 ≠ .executed) : ∃ l, n = k + l ∧ advance? l m₂ = some m₁ := by
  induction k generalizing m n with
  | zero =>
    obtain rfl := Option.some.inj h
    exact ⟨n, by omega, h₁⟩
  | succ k ih =>
    obtain ⟨m₃, hs₃, h⟩ := advance?_succ_eq_some_iff.1 h
    cases n with
    | zero =>
      obtain rfl := Option.some.inj h₁
      exact absurd (congrArg Prod.fst hs₃) hs
    | succ n =>
      rw [advance?_succ_of_step hs₃] at h₁
      obtain ⟨l, rfl, hl⟩ := ih h h₁
      exact ⟨l, by omega, hl⟩

theorem advance?_stop_unique {m₂ : Machine} (h₁ : advance? n m = some m₁)
    (h₂ : advance? k m = some m₂) (hs₁ : m₁.step.1 ≠ .executed) (hs₂ : m₂.step.1 ≠ .executed) :
    n = k ∧ m₁ = m₂ := by
  obtain ⟨l, rfl, hl⟩ := advance?_split h₁ h₂ hs₂
  cases l with
  | zero => exact ⟨rfl, Option.some.inj hl⟩
  | succ l =>
    obtain ⟨_, h, -⟩ := advance?_succ_eq_some_iff.1 hl
    exact absurd (congrArg Prod.fst h) hs₁

theorem run_unique {fuel fuel' : Nat} {o' : Outcome} (h : run fuel m = some (o, m'))
    (h' : run fuel' m = some (o', m₁)) : o = o' ∧ m' = m₁ := by
  obtain ⟨n, -, m₂, ha, hs, hf⟩ := run_eq_some_iff.1 h
  obtain ⟨k, -, m₃, ha', hs', hf'⟩ := run_eq_some_iff.1 h'
  obtain ⟨-, rfl⟩ := advance?_stop_unique ha ha' hs hs'
  exact Prod.mk.inj (hf.symm.trans hf')

theorem run_eq_none_iff :
    (∀ fuel, run fuel m = none) ↔ ∀ o, ¬ ∃ fuel m', run fuel m = some (o, m') := by
  constructor
  · rintro hnone o ⟨fuel, m', hr⟩
    rw [hnone fuel] at hr
    cases hr
  · intro hnot fuel
    apply Option.eq_none_iff_forall_ne_some.2
    rintro ⟨o, m'⟩ hr
    exact hnot o ⟨fuel, m', hr⟩

end Brainfuck.Machine
