import Brainfuck.Proofs.Machine.Step
import Brainfuck.Runner

/-!
# The course of a run

A bounded run takes turns until one of them ends it. All that a turn can do is said once, by
`turn_cases`. The course of a run is what lies before the turn that ends it: the run at each turn,
with the machines that were left by the steps taken so far.
-/

namespace Brainfuck

/-- A run of a machine on a source ends like this, and an observer of its steps is shown these
machines. -/
def Machine.RunsTo {σ : Type} [InputSource σ] (options : RunOptions) (m : Machine) (source : σ)
    (ms : List Machine) (fin : FinishedRun σ) : Prop :=
  ∃ fuel, m.traceOn options (fun seen m => seen ++ [m]) fuel [] source = some (ms, fin)

namespace Run

section

variable {σ : Type} [InputSource σ]

/-- A run comes to another one by turns that do not end it, in which steps leave these machines. -/
inductive Course (options : RunOptions) (r : Run σ) : List Machine → Run σ → Prop
  | start : Course options r [] r
  | executed {ms r₁ r₂} : Course options r ms r₁ → r₁.turn options = (.executed, r₂) →
      Course options r (ms ++ [r₂.machine]) r₂
  | refilled {ms r₁ r₂ chunk} : Course options r ms r₁ →
      r₁.turn options = (.refilled chunk, r₂) → Course options r ms r₂

end

section

variable {σ : Type} {options : RunOptions} {r r₁ r₂ : Run σ} {ms ms' : List Machine}

theorem atLimit_iff :
    r.atLimit options = true ↔ 0 < options.stepLimit ∧ options.stepLimit ≤ r.report.steps ∧
      r.machine.ip < r.machine.program.size := by
  simp [atLimit, Machine.isDone, and_assoc]

theorem atLimit_of_zero (r : Run σ) : r.atLimit ⟨0⟩ = false := by
  simp [atLimit]

theorem atLimit_of_lt (h : r.report.steps < options.stepLimit) : r.atLimit options = false := by
  rw [Bool.eq_false_iff, ne_eq, atLimit_iff]
  omega

variable [InputSource σ]

theorem turn_of_atLimit (h : r.atLimit options = true) :
    r.turn options = (.ended (.error (.stepLimitExceeded options.stepLimit r.machine.ip)), r) := by
  simp [turn, h]

theorem turn_eq_unbounded (h : r.atLimit options = false) : r.turn options = r.turn ⟨0⟩ := by
  simp [turn, h, atLimit_of_zero]

theorem turn_of_step_executed {m : Machine} (h : r.atLimit options = false)
    (hs : r.machine.step = (.executed, m)) :
    r.turn options =
      (.executed, ⟨m, r.source, { r.report with steps := r.report.steps + 1 }⟩) := by
  simp [turn, h, hs]

theorem turn_of_step_done (h : r.atLimit options = false) (hs : r.machine.step.1 = .done) :
    r.turn options = (.ended (.ok r.report), ⟨r.machine.finish.2, r.source, r.report⟩) := by
  obtain ⟨hstep, -, -⟩ := Machine.step_eq_of_done hs
  simp [turn, h, hstep]

/-- What a turn can do away from the bound: execute, refill the machine, or end the run since the
source has nothing left, since it fails, or since the machine is at the end of its program. -/
theorem turn_cases (h : r.atLimit options = false) :
    (∃ m, r.machine.step = (.executed, m) ∧ r.turn options =
      (.executed, ⟨m, r.source, { r.report with steps := r.report.steps + 1 }⟩)) ∨
    (∃ chunk s, r.machine.step.1 = .blocked ∧
      InputSource.nextChunk r.source { r.machine with blocked := true } = (.ok (some chunk), s) ∧
      r.turn options = (.refilled chunk, ⟨r.machine.supply chunk, s,
        { r.report with refills := r.report.refills + 1 }⟩)) ∨
    (∃ s, r.machine.step.1 = .blocked ∧
      InputSource.nextChunk r.source { r.machine with blocked := true } = (.ok none, s) ∧
      r.turn options = (.ended (.error (.inputExhausted r.machine.ip)),
        ⟨{ r.machine with blocked := true }, s, r.report⟩)) ∨
    (∃ e s, r.machine.step.1 = .blocked ∧
      InputSource.nextChunk r.source { r.machine with blocked := true } = (.error e, s) ∧
      r.turn options = (.ended (.error e),
        ⟨{ r.machine with blocked := true }, s, r.report⟩)) ∨
    (r.machine.step.1 = .done ∧ r.turn options =
      (.ended (.ok r.report), ⟨r.machine.finish.2, r.source, r.report⟩)) := by
  cases hs : r.machine.step.1 with
  | executed =>
    have hstep : r.machine.step = (.executed, r.machine.step.2) := Prod.ext hs rfl
    exact .inl ⟨_, hstep, turn_of_step_executed h hstep⟩
  | done => exact .inr (.inr (.inr (.inr ⟨rfl, turn_of_step_done h hs⟩)))
  | blocked =>
    have hstep := Machine.step_eq_of_blocked hs
    rcases hc : InputSource.nextChunk r.source { r.machine with blocked := true } with ⟨result, s⟩
    rcases result with e | _ | chunk
    · exact .inr (.inr (.inr (.inl ⟨e, s, rfl, rfl, by simp [turn, h, hstep, hc]⟩)))
    · exact .inr (.inr (.inl ⟨s, rfl, rfl, by simp [turn, h, hstep, hc]⟩))
    · exact .inr (.inl ⟨chunk, s, rfl, rfl, by simp [turn, h, hstep, hc, Machine.supply]⟩)

theorem turn_executed (h : r.turn options = (.executed, r₁)) :
    r.machine.step = (.executed, r₁.machine) ∧ r₁.source = r.source ∧
      r₁.report.steps = r.report.steps + 1 := by
  cases hl : r.atLimit options with
  | true => simp [turn_of_atLimit hl] at h
  | false =>
    rcases turn_cases hl with
      ⟨m, hs, ht⟩ | ⟨_, _, -, -, ht⟩ | ⟨_, -, -, ht⟩ | ⟨_, _, -, -, ht⟩ | ⟨-, ht⟩
    · obtain rfl := (Prod.mk.inj (ht.symm.trans h)).2
      exact ⟨hs, rfl, rfl⟩
    all_goals simp [ht] at h

theorem turn_refilled {chunk : String} (h : r.turn options = (.refilled chunk, r₁)) :
    r.machine.step.1 = .blocked ∧ r₁.machine = r.machine.supply chunk ∧
      InputSource.nextChunk r.source { r.machine with blocked := true } =
        (.ok (some chunk), r₁.source) ∧ r₁.report.steps = r.report.steps := by
  cases hl : r.atLimit options with
  | true => simp [turn_of_atLimit hl] at h
  | false =>
    rcases turn_cases hl with
      ⟨m, -, ht⟩ | ⟨_, s, hs, hc, ht⟩ | ⟨_, -, -, ht⟩ | ⟨_, _, -, -, ht⟩ | ⟨-, ht⟩
    · simp [ht] at h
    · obtain ⟨h₁, rfl⟩ := Prod.mk.inj (ht.symm.trans h)
      obtain rfl := Turn.refilled.inj h₁
      exact ⟨hs, rfl, hc, rfl⟩
    all_goals simp [ht] at h

theorem ended_cases {result : Except Error RunReport} (h : r.turn options = (.ended result, r₁)) :
    (r.atLimit options = true ∧
      result = .error (.stepLimitExceeded options.stepLimit r.machine.ip) ∧ r₁ = r) ∨
    (∃ answer s, r.machine.step.1 = .blocked ∧
      InputSource.nextChunk r.source { r.machine with blocked := true } = (answer, s) ∧
      r₁ = ⟨{ r.machine with blocked := true }, s, r.report⟩ ∧
      (answer = .ok none ∧ result = .error (.inputExhausted r.machine.ip) ∨
        ∃ e, answer = .error e ∧ result = .error e)) ∨
    (r.machine.step.1 = .done ∧ result = .ok r.report ∧
      r₁ = ⟨r.machine.finish.2, r.source, r.report⟩) := by
  cases hl : r.atLimit options with
  | true =>
    cases (turn_of_atLimit hl).symm.trans h
    exact .inl ⟨rfl, rfl, rfl⟩
  | false =>
    rcases turn_cases hl with
      ⟨m, -, ht⟩ | ⟨_, _, -, -, ht⟩ | ⟨s, hs, hc, ht⟩ | ⟨e, s, hs, hc, ht⟩ | ⟨hs, ht⟩
    · cases ht.symm.trans h
    · cases ht.symm.trans h
    · cases ht.symm.trans h
      exact .inr (.inl ⟨_, s, hs, hc, rfl, .inl ⟨rfl, rfl⟩⟩)
    · cases ht.symm.trans h
      exact .inr (.inl ⟨_, s, hs, hc, rfl, .inr ⟨e, rfl, rfl⟩⟩)
    · cases ht.symm.trans h
      exact .inr (.inr ⟨hs, rfl, rfl⟩)

theorem turn_ended_ok {report : RunReport} (h : r.turn options = (.ended (.ok report), r₁)) :
    r.machine.step.1 = .done ∧ report = r.report := by
  rcases ended_cases h with ⟨-, he, -⟩ | ⟨_, _, -, -, -, ⟨-, he⟩ | ⟨_, -, he⟩⟩ | ⟨hs, he, -⟩
  · cases he
  · cases he
  · cases he
  · exact ⟨hs, Except.ok.inj he⟩

/-- What steps, requests for input and its supply, and the way back to the start preserve of a
machine and a source, a turn preserves. -/
theorem preserves_turn {P : Machine → σ → Prop} (hstep : ∀ m s, P m s → P m.step.2 s)
    (hask : ∀ m s, P m s → P m (InputSource.nextChunk s m).2)
    (hsupply : ∀ m s text, P m s → P (m.supply text) s)
    (hfinish : ∀ m s, P m s → P m.finish.2 s) (options : RunOptions)
    (h : P r.machine r.source) : P (r.turn options).2.machine (r.turn options).2.source := by
  have hnext := hstep _ _ h
  have asked {answer s} (hs : r.machine.step.1 = .blocked)
      (hc : InputSource.nextChunk r.source { r.machine with blocked := true } = (answer, s)) :
      P { r.machine with blocked := true } s := by
    rw [Machine.step_eq_of_blocked hs] at hnext
    have := hask _ _ hnext
    rwa [hc] at this
  cases hl : r.atLimit options with
  | true =>
    rw [turn_of_atLimit hl]
    exact h
  | false =>
    rcases turn_cases hl with
      ⟨m, hs, ht⟩ | ⟨chunk, s, hs, hc, ht⟩ | ⟨s, hs, hc, ht⟩ | ⟨e, s, hs, hc, ht⟩ | ⟨-, ht⟩
    · rw [hs] at hnext
      rw [ht]
      exact hnext
    · rw [ht]
      exact hsupply { r.machine with blocked := true } s chunk (asked hs hc)
    · rw [ht]
      exact asked hs hc
    · rw [ht]
      exact asked hs hc
    · rw [ht]
      exact hfinish _ _ h

/-! ### Courses -/

theorem Course.trans (h : Course options r ms r₁) (h' : Course options r₁ ms' r₂) :
    Course options r (ms ++ ms') r₂ := by
  induction h' with
  | start => rwa [List.append_nil]
  | executed _ ht ih =>
    rw [← List.append_assoc]
    exact ih.executed ht
  | refilled _ ht ih => exact ih.refilled ht

theorem Course.steps_eq (h : Course options r ms r₁) :
    r₁.report.steps = r.report.steps + ms.length := by
  induction h with
  | start => rfl
  | executed _ ht ih =>
    rw [(turn_executed ht).2.2, ih, List.length_append, List.length_singleton, Nat.add_assoc]
  | refilled _ ht ih => rw [(turn_refilled ht).2.2.2, ih]

theorem Course.unblocked (h : Course options r ms r₁) (hms : ms ≠ []) :
    r₁.machine.blocked = false := by
  cases h with
  | start => exact absurd rfl hms
  | executed _ ht => exact (Machine.blocked_of_step_executed (turn_executed ht).1).2.1
  | refilled _ ht =>
    rw [(turn_refilled ht).2.1]
    rfl

/-! ### The ends of runs -/

/-- The turns of a run, as an observer of its steps that keeps the machines sees them. -/
def collect (options : RunOptions) (fuel : Nat) (seen : List Machine) (r : Run σ) :
    Option (List Machine × FinishedRun σ) :=
  r.drive options
    (fun seen event m =>
      match event with
      | .turned .executed => seen ++ [m]
      | _ => seen) fuel seen

theorem collect_succ_of_executed {fuel : Nat} (h : r.turn options = (.executed, r₁)) :
    collect options (fuel + 1) ms r = collect options fuel (ms ++ [r₁.machine]) r₁ := by
  simp [collect, drive, h]

theorem collect_succ_of_refilled {fuel : Nat} {chunk : String}
    (h : r.turn options = (.refilled chunk, r₁)) :
    collect options (fuel + 1) ms r = collect options fuel ms r₁ := by
  simp [collect, drive, h]

theorem collect_succ_of_ended {fuel : Nat} {result : Except Error RunReport}
    (h : r.turn options = (.ended result, r₁)) :
    collect options (fuel + 1) ms r = some (ms, ⟨result, r₁.machine, r₁.source⟩) := by
  simp [collect, drive, h]

theorem Course.collect (h : Course options r ms r₁) :
    ∃ n, ∀ fuel seen, Run.collect options (n + fuel) seen r =
      Run.collect options fuel (seen ++ ms) r₁ := by
  induction h with
  | start => exact ⟨0, fun fuel seen => by rw [Nat.zero_add, List.append_nil]⟩
  | executed _ ht ih =>
    obtain ⟨n, hn⟩ := ih
    refine ⟨n + 1, fun fuel seen => ?_⟩
    rw [Nat.add_right_comm, Nat.add_assoc, hn, collect_succ_of_executed ht, List.append_assoc]
  | refilled _ ht ih =>
    obtain ⟨n, hn⟩ := ih
    refine ⟨n + 1, fun fuel seen => ?_⟩
    rw [Nat.add_right_comm, Nat.add_assoc, hn, collect_succ_of_refilled ht]

theorem exists_course_of_collect {fuel : Nat} {seen : List Machine} {fin : FinishedRun σ}
    (h : collect options fuel seen r = some (ms', fin)) :
    ∃ ms r₁ result r₂, Course options r ms r₁ ∧ r₁.turn options = (.ended result, r₂) ∧
      ms' = seen ++ ms ∧ fin = ⟨result, r₂.machine, r₂.source⟩ := by
  induction fuel generalizing seen r with
  | zero => simp [collect, drive] at h
  | succ fuel ih =>
    rcases ht : r.turn options with ⟨_ | chunk | result, r₁⟩
    · rw [collect_succ_of_executed ht] at h
      obtain ⟨ms, r₂, result, r₃, hc, he, rfl, rfl⟩ := ih h
      refine ⟨[r₁.machine] ++ ms, r₂, result, r₃, ?_, he, List.append_assoc .., rfl⟩
      exact Course.trans (.executed .start ht) hc
    · rw [collect_succ_of_refilled ht] at h
      obtain ⟨ms, r₂, result, r₃, hc, he, rfl, rfl⟩ := ih h
      exact ⟨[] ++ ms, r₂, result, r₃, Course.trans (.refilled .start ht) hc, he, rfl, rfl⟩
    · rw [collect_succ_of_ended ht] at h
      obtain ⟨rfl, rfl⟩ := Prod.mk.inj (Option.some.inj h)
      exact ⟨[], r, result, r₁, .start, ht, (List.append_nil _).symm, rfl⟩

theorem collect_unique {fuel fuel' : Nat} {seen : List Machine} {fin fin' : FinishedRun σ}
    (h : collect options fuel seen r = some (ms, fin))
    (h' : collect options fuel' seen r = some (ms', fin')) : ms = ms' ∧ fin = fin' := by
  induction fuel generalizing fuel' seen r with
  | zero => simp [collect, drive] at h
  | succ fuel ih =>
    cases fuel' with
    | zero => simp [collect, drive] at h'
    | succ fuel' =>
      rcases ht : r.turn options with ⟨_ | chunk | result, r₁⟩
      · rw [collect_succ_of_executed ht] at h h'
        exact ih h h'
      · rw [collect_succ_of_refilled ht] at h h'
        exact ih h h'
      · rw [collect_succ_of_ended ht] at h h'
        exact Prod.mk.inj (Option.some.inj (h.symm.trans h'))

theorem drive_eq_collect {α : Type} (observe : α → RunEvent → Machine → α) (fuel : Nat)
    (seen : α) (ms : List Machine) (r : Run σ) :
    (r.drive options observe fuel seen).map Prod.snd =
      (collect options fuel ms r).map Prod.snd := by
  induction fuel generalizing seen r ms with
  | zero => rfl
  | succ fuel ih =>
    rcases ht : r.turn options with ⟨_ | chunk | result, r₁⟩
    · rw [collect_succ_of_executed ht]
      simp only [drive, ht]
      exact ih _ _ r₁
    · rw [collect_succ_of_refilled ht]
      simp only [drive, ht]
      exact ih _ _ r₁
    · rw [collect_succ_of_ended ht]
      simp only [drive, ht, Option.map_some]

theorem exists_runsTo {m : Machine} {source : σ} {fuel : Nat} {fin : FinishedRun σ}
    (h : m.runOn options fuel source = some fin) : ∃ ms, m.RunsTo options source ms fin := by
  rw [Machine.runOn, drive_eq_collect _ _ _ []] at h
  obtain ⟨⟨ms, fin'⟩, hc, rfl⟩ := Option.map_eq_some_iff.1 h
  exact ⟨ms, fuel, hc⟩

theorem runsTo_iff {m : Machine} {source : σ} {fin : FinishedRun σ} :
    m.RunsTo options source ms fin ↔ ∃ r₁ result r₂, Course options ⟨m, source, {}⟩ ms r₁ ∧
      r₁.turn options = (.ended result, r₂) ∧ fin = ⟨result, r₂.machine, r₂.source⟩ := by
  constructor
  · rintro ⟨fuel, h⟩
    obtain ⟨ms, r₁, result, r₂, hc, ht, rfl, rfl⟩ := exists_course_of_collect h
    exact ⟨r₁, result, r₂, hc, ht, rfl⟩
  · rintro ⟨r₁, result, r₂, hc, ht, rfl⟩
    obtain ⟨n, hn⟩ := hc.collect
    have hend := hn 1 []
    rw [List.nil_append, collect_succ_of_ended ht] at hend
    exact ⟨n + 1, hend⟩

end

end Run

end Brainfuck
