import Brainfuck.Proofs.Run.Course

/-!
# Transcripts of runs

The transcript of a run holds the machines on which its steps were executed and the chunks of input
that were supplied to it, both in order. It is what an observer of all events can tell of a run, also
of one that fails. `Run.Ends` follows a run to its end turn by turn, and whatever else an observer of
the steps is shown can be read off the transcript.
-/

namespace Brainfuck

instance : Add RunReport where
  add a b := ⟨a.steps + b.steps, a.refills + b.refills⟩

@[simp] theorem RunReport.mk_add_mk (a b c d : Nat) :
    (⟨a, b⟩ + ⟨c, d⟩ : RunReport) = ⟨a + c, b + d⟩ := rfl

@[simp] theorem RunReport.steps_add (a b : RunReport) : (a + b).steps = a.steps + b.steps := rfl

theorem RunReport.add_assoc (a b c : RunReport) : a + b + c = a + (b + c) := by
  cases a
  cases b
  cases c
  simp [Nat.add_assoc]

@[simp] theorem RunReport.empty_add (a : RunReport) : ({} : RunReport) + a = a := by
  cases a
  simp

@[simp] theorem RunReport.add_empty (a : RunReport) : a + ({} : RunReport) = a := rfl

@[ext]
structure Transcript where
  /-- The machines on which a step executed a character, as they were before it. -/
  executed : List Machine := []
  /-- The chunks of input that were supplied. -/
  chunks : List String := []

namespace Transcript

def note (t : Transcript) : RunEvent → Machine → Transcript
  | .stepping, m =>
      if m.step.1 = .executed then { t with executed := t.executed ++ [m] } else t
  | .turned (.refilled chunk), _ => { t with chunks := t.chunks ++ [chunk] }
  | .turned _, _ => t

instance : Append Transcript where
  append t t' := ⟨t.executed ++ t'.executed, t.chunks ++ t'.chunks⟩

@[simp] theorem executed_append (t t' : Transcript) :
    (t ++ t').executed = t.executed ++ t'.executed := rfl

@[simp] theorem chunks_append (t t' : Transcript) :
    (t ++ t').chunks = t.chunks ++ t'.chunks := rfl

/-- The machines that the executed steps left. -/
def left (t : Transcript) : List Machine := t.executed.map fun m => m.step.2

def report (t : Transcript) : RunReport := ⟨t.executed.length, t.chunks.length⟩

@[simp] theorem report_empty : ({} : Transcript).report = {} := rfl

theorem report_append (t t' : Transcript) : (t ++ t').report = t.report + t'.report := by
  simp [report]

theorem left_append (t t' : Transcript) : (t ++ t').left = t.left ++ t'.left := by
  simp [left]

@[simp] theorem empty_append (t : Transcript) : ({} : Transcript) ++ t = t := rfl

@[simp] theorem append_empty (t : Transcript) : t ++ ({} : Transcript) = t := by
  ext1 <;> simp

theorem append_assoc (t₁ t₂ t₃ : Transcript) : t₁ ++ t₂ ++ t₃ = t₁ ++ (t₂ ++ t₃) := by
  ext1 <;> simp

theorem exists_eq_append_iff {t t₁ t₂ : Transcript} {P : Transcript → Prop} :
    (∃ t₃, t = t₁ ++ t₃ ∧ ∃ t₄, t₃ = t₂ ++ t₄ ∧ P t₄) ↔ ∃ t₄, t = t₁ ++ t₂ ++ t₄ ∧ P t₄ := by
  constructor
  · rintro ⟨_, rfl, t₄, rfl, h⟩
    exact ⟨t₄, (append_assoc _ _ _).symm, h⟩
  · rintro ⟨t₄, rfl, h⟩
    exact ⟨_, append_assoc _ _ _, t₄, rfl, h⟩

end Transcript

/-- A run of a machine on a source ends like this, and this is its transcript. -/
def Machine.Performs {σ : Type} [InputSource σ] (options : RunOptions) (m : Machine) (source : σ)
    (t : Transcript) (fin : FinishedRun σ) : Prop :=
  ∃ fuel, Run.drive options Transcript.note fuel {} ⟨m, source, {}⟩ = some (t, fin)

namespace Run

/-- A run comes to its end by turns that leave this transcript. -/
inductive Ends {σ : Type} [InputSource σ] (options : RunOptions) :
    Run σ → Transcript → FinishedRun σ → Prop
  | executed {r r₁ t fin} : r.turn options = (.executed, r₁) → Ends options r₁ t fin →
      Ends options r (⟨[r.machine], []⟩ ++ t) fin
  | refilled {r r₁ chunk t fin} : r.turn options = (.refilled chunk, r₁) →
      Ends options r₁ t fin → Ends options r (⟨[], [chunk]⟩ ++ t) fin
  | ended {r r₁ result} : r.turn options = (.ended result, r₁) →
      Ends options r {} ⟨result, r₁.machine, r₁.source⟩

variable {σ α : Type} [InputSource σ] {options : RunOptions} {r r₁ : Run σ} {t t' : Transcript}
  {fin fin' : FinishedRun σ} {m : Machine} {source : σ}

/-! ### One turn -/

theorem ends_iff_of_executed (h : r.turn options = (.executed, r₁)) :
    Ends options r t fin ↔
      ∃ t₁, t = ⟨[r.machine], []⟩ ++ t₁ ∧ Ends options r₁ t₁ fin := by
  constructor
  · intro he
    cases he with
    | executed ht he =>
      obtain rfl := (Prod.mk.inj (ht.symm.trans h)).2
      exact ⟨_, rfl, he⟩
    | refilled ht _ => simp [ht] at h
    | ended ht => simp [ht] at h
  · rintro ⟨t₁, rfl, he⟩
    exact .executed h he

theorem ends_iff_of_refilled {chunk : String} (h : r.turn options = (.refilled chunk, r₁)) :
    Ends options r t fin ↔ ∃ t₁, t = ⟨[], [chunk]⟩ ++ t₁ ∧ Ends options r₁ t₁ fin := by
  constructor
  · intro he
    cases he with
    | executed ht _ => simp [ht] at h
    | refilled ht he =>
      obtain ⟨hchunk, rfl⟩ := Prod.mk.inj (ht.symm.trans h)
      obtain rfl := Turn.refilled.inj hchunk
      exact ⟨_, rfl, he⟩
    | ended ht => simp [ht] at h
  · rintro ⟨t₁, rfl, he⟩
    exact .refilled h he

theorem ends_iff_of_ended {result : Except Error RunReport}
    (h : r.turn options = (.ended result, r₁)) :
    Ends options r t fin ↔ t = {} ∧ fin = ⟨result, r₁.machine, r₁.source⟩ := by
  constructor
  · intro he
    cases he with
    | executed ht _ => simp [ht] at h
    | refilled ht _ => simp [ht] at h
    | ended ht =>
      obtain ⟨hresult, rfl⟩ := Prod.mk.inj (ht.symm.trans h)
      obtain rfl := Turn.ended.inj hresult
      exact ⟨rfl, rfl⟩
  · rintro ⟨rfl, rfl⟩
    exact .ended h

theorem report_of_turn :
    (∀ r₁, r.turn options = (.executed, r₁) → r₁.report = r.report + ⟨1, 0⟩) ∧
    ∀ chunk r₁, r.turn options = (.refilled chunk, r₁) → r₁.report = r.report + ⟨0, 1⟩ := by
  cases hl : r.atLimit options with
  | true => simp [turn_of_atLimit hl]
  | false =>
    rcases turn_cases hl with
      ⟨m, -, ht⟩ | ⟨_, _, -, -, ht⟩ | ⟨_, -, -, ht⟩ | ⟨_, _, -, -, ht⟩ | ⟨-, ht⟩
    all_goals
      constructor
      · intro r₁ h
        cases ht.symm.trans h <;> rfl
      · intro chunk r₁ h
        cases ht.symm.trans h <;> rfl

theorem Ends.unique (h : Ends options r t fin) (h' : Ends options r t' fin') :
    t = t' ∧ fin = fin' := by
  induction h generalizing t' with
  | executed ht _ ih =>
    obtain ⟨t₁, rfl, h₁⟩ := (ends_iff_of_executed ht).1 h'
    obtain ⟨rfl, rfl⟩ := ih h₁
    exact ⟨rfl, rfl⟩
  | refilled ht _ ih =>
    obtain ⟨t₁, rfl, h₁⟩ := (ends_iff_of_refilled ht).1 h'
    obtain ⟨rfl, rfl⟩ := ih h₁
    exact ⟨rfl, rfl⟩
  | ended ht =>
    obtain ⟨rfl, rfl⟩ := (ends_iff_of_ended ht).1 h'
    exact ⟨rfl, rfl⟩

/-! ### Observers -/

theorem note_stepping (t : Transcript) (h : m.step.1 = .executed) :
    t.note .stepping m = t ++ ⟨[m], []⟩ := by
  ext1 <;> simp [Transcript.note, h]

theorem note_stepping_of_ne (t : Transcript) (h : m.step.1 ≠ .executed) :
    t.note .stepping m = t := by
  simp [Transcript.note, h]

theorem step_of_ended {result : Except Error RunReport}
    (h : r.turn options = (.ended result, r₁)) :
    r.atLimit options = true ∨ r.machine.step.1 ≠ .executed := by
  cases hl : r.atLimit options with
  | true => exact .inl rfl
  | false =>
    right
    intro hs
    have hstep : r.machine.step = (.executed, r.machine.step.2) := Prod.ext hs rfl
    simp [turn_of_step_executed hl hstep] at h

theorem atLimit_of_turn (h : ∀ result, (r.turn options).1 ≠ .ended result) :
    r.atLimit options = false := by
  rw [Bool.eq_false_iff]
  intro hl
  exact h _ (by rw [turn_of_atLimit hl])

theorem drive_note_of_executed {fuel : Nat} (h : r.turn options = (.executed, r₁)) :
    r.drive options Transcript.note (fuel + 1) t =
      r₁.drive options Transcript.note fuel (t ++ ⟨[r.machine], []⟩) := by
  have hl : r.atLimit options = false := atLimit_of_turn (by simp [h])
  have hs : r.machine.step.1 = .executed := by rw [(turn_executed h).1]
  simp only [drive, h, hl, Bool.false_eq_true, if_false, note_stepping t hs]
  rfl

theorem drive_note_of_refilled {fuel : Nat} {chunk : String}
    (h : r.turn options = (.refilled chunk, r₁)) :
    r.drive options Transcript.note (fuel + 1) t =
      r₁.drive options Transcript.note fuel (t ++ ⟨[], [chunk]⟩) := by
  have hl : r.atLimit options = false := atLimit_of_turn (by simp [h])
  have hs : r.machine.step.1 ≠ .executed := by simp [(turn_refilled h).1]
  have hnote : t.note (.turned (.refilled chunk)) r₁.machine = t ++ ⟨[], [chunk]⟩ := by
    ext1 <;> simp [Transcript.note]
  simp only [drive, h, hl, Bool.false_eq_true, if_false, note_stepping_of_ne t hs, hnote]

theorem drive_note_of_ended {fuel : Nat} {result : Except Error RunReport}
    (h : r.turn options = (.ended result, r₁)) :
    r.drive options Transcript.note (fuel + 1) t =
      some (t, ⟨result, r₁.machine, r₁.source⟩) := by
  have hnote : (if r.atLimit options then t else t.note .stepping r.machine) = t := by
    rcases step_of_ended h with hl | hs
    · simp [hl]
    · simp [note_stepping_of_ne t hs]
  simp only [drive, h, hnote]
  rfl

/-- Putting all events of a run on record gives its transcript. -/
theorem exists_drive_note_iff (t₀ : Transcript) :
    (∃ fuel, r.drive options Transcript.note fuel t₀ = some (t, fin)) ↔
      ∃ t₁, t = t₀ ++ t₁ ∧ Ends options r t₁ fin := by
  constructor
  · rintro ⟨fuel, h⟩
    induction fuel generalizing r t₀ with
    | zero => simp [drive] at h
    | succ fuel ih =>
      rcases ht : r.turn options with ⟨_ | chunk | result, r₁⟩
      · rw [drive_note_of_executed ht] at h
        obtain ⟨t₁, rfl, h₁⟩ := ih _ h
        exact ⟨_, Transcript.append_assoc _ _ _, .executed ht h₁⟩
      · rw [drive_note_of_refilled ht] at h
        obtain ⟨t₁, rfl, h₁⟩ := ih _ h
        exact ⟨_, Transcript.append_assoc _ _ _, .refilled ht h₁⟩
      · rw [drive_note_of_ended ht] at h
        obtain ⟨rfl, rfl⟩ := Prod.mk.inj (Option.some.inj h)
        exact ⟨{}, (Transcript.append_empty _).symm, .ended ht⟩
  · rintro ⟨t₁, rfl, h⟩
    induction h generalizing t₀ with
    | executed ht _ ih =>
      obtain ⟨fuel, h⟩ := ih (t₀ ++ ⟨[_], []⟩)
      rw [← drive_note_of_executed ht, Transcript.append_assoc] at h
      exact ⟨fuel + 1, h⟩
    | refilled ht _ ih =>
      obtain ⟨fuel, h⟩ := ih (t₀ ++ ⟨[], [_]⟩)
      rw [← drive_note_of_refilled ht, Transcript.append_assoc] at h
      exact ⟨fuel + 1, h⟩
    | ended ht => exact ⟨1, by rw [drive_note_of_ended ht, Transcript.append_empty]⟩

theorem performs_iff :
    m.Performs options source t fin ↔ Ends options ⟨m, source, {}⟩ t fin := by
  rw [Machine.Performs, exists_drive_note_iff]
  simp

/-- An observer of the steps of a run. -/
def onSteps (observe : α → Machine → α) (seen : α) : RunEvent → Machine → α
  | .turned .executed, m => observe seen m
  | _, _ => seen

theorem traceOn_eq_drive (observe : α → Machine → α) (fuel : Nat) (seen : α) :
    m.traceOn options observe fuel seen source =
      drive options (onSteps observe) fuel seen ⟨m, source, {}⟩ := by
  unfold Machine.traceOn
  congr 1
  funext seen event m
  rcases event with _ | _ | _ | _ <;> rfl

theorem exists_drive_onSteps_iff (observe : α → Machine → α) (seen seen' : α) :
    (∃ fuel, r.drive options (onSteps observe) fuel seen = some (seen', fin)) ↔
      ∃ t, Ends options r t fin ∧ seen' = t.left.foldl observe seen := by
  constructor
  · rintro ⟨fuel, h⟩
    induction fuel generalizing r seen with
    | zero => simp [drive] at h
    | succ fuel ih =>
      rcases ht : r.turn options with ⟨_ | chunk | result, r₁⟩
      · simp only [drive, ht, onSteps, ite_self] at h
        obtain ⟨t, he, rfl⟩ := ih _ h
        refine ⟨_, .executed ht he, ?_⟩
        simp [Transcript.left, (turn_executed ht).1]
      · simp only [drive, ht, onSteps, ite_self] at h
        obtain ⟨t, he, rfl⟩ := ih _ h
        exact ⟨_, .refilled ht he, rfl⟩
      · simp only [drive, ht, onSteps, ite_self, Option.some.injEq, Prod.mk.injEq] at h
        obtain ⟨rfl, rfl⟩ := h
        exact ⟨{}, .ended ht, rfl⟩
  · rintro ⟨t, h, rfl⟩
    induction h generalizing seen with
    | executed ht _ ih =>
      obtain ⟨fuel, h⟩ := ih (observe seen _)
      refine ⟨fuel + 1, ?_⟩
      simp only [drive, ht, onSteps, ite_self]
      rw [h]
      simp [Transcript.left, (turn_executed ht).1]
    | refilled ht _ ih =>
      obtain ⟨fuel, h⟩ := ih seen
      refine ⟨fuel + 1, ?_⟩
      simp only [drive, ht, onSteps, ite_self]
      exact h
    | ended ht =>
      refine ⟨1, ?_⟩
      simp only [drive, ht, onSteps, ite_self]
      rfl

theorem exists_traceOn_iff (observe : α → Machine → α) (seen seen' : α) :
    (∃ fuel, m.traceOn options observe fuel seen source = some (seen', fin)) ↔
      ∃ t, m.Performs options source t fin ∧ seen' = t.left.foldl observe seen := by
  simp only [traceOn_eq_drive, performs_iff, exists_drive_onSteps_iff]

theorem map_drive_eq_runOn (observe : α → RunEvent → Machine → α) (fuel : Nat) (seen : α) :
    (drive options observe fuel seen ⟨m, source, {}⟩).map Prod.snd =
      m.runOn options fuel source := by
  rw [Machine.runOn, drive_eq_collect _ _ _ [], drive_eq_collect _ _ _ []]

theorem exists_runOn_iff :
    (∃ fuel, m.runOn options fuel source = some fin) ↔
      ∃ t, m.Performs options source t fin := by
  simp only [Machine.Performs, ← map_drive_eq_runOn Transcript.note _ {}, Option.map_eq_some_iff,
    Prod.exists, exists_eq_right]
  exact exists_comm

end Run

end Brainfuck
