import Brainfuck.Input.Lines
import Brainfuck.Output.Forwarder
import Brainfuck.Proofs.Run.Transcript

/-!
# Interrupted runs

A run that is stopped by its bound, that finds no more input or that fails to get some leaves the
machine as if it had not been stopped: a second run goes on from there, and the two come to the same
as one run. The proof has two halves. The one run takes the turns of the interrupted one, up to its
last (`Ends.interrupted`), and from there on the turns of the second run (`Ends.after`).
-/

namespace Brainfuck

variable {σ τ ω : Type} [InputSource σ] [InputSource τ] [ByteWriter ω]

/-- Chunks that come before those of a source. -/
structure QueuedSource (σ : Type) where
  chunks : List String
  source : σ

instance : InputSource (QueuedSource σ) where
  nextChunk
    | ⟨chunk :: rest, source⟩, _ => (.ok (some chunk), ⟨rest, source⟩)
    | ⟨[], source⟩, m =>
        ((InputSource.nextChunk source m).1, ⟨[], (InputSource.nextChunk source m).2⟩)

/-- Two errors that are the same but for the bounds of the runs that they ended. -/
def Error.Agrees (limit limit' : Nat) (e e' : Error) : Prop :=
  e' = e ∨ ∃ ip, e = .stepLimitExceeded limit ip ∧ e' = .stepLimitExceeded limit' ip

/-- A run ends in `whole` if its last part, run by itself, ends in `last` and what was done before
that part is in a report. -/
structure FinishedRun.Prolongs (first : RunReport) (limit limit' : Nat) (place : σ → τ)
    (last : FinishedRun σ) (whole : FinishedRun τ) : Prop where
  machine : whole.machine = last.machine
  source : whole.source = place last.source
  result : match last.result, whole.result with
    | .ok report, .ok report' => report' = first + report
    | .error e, .error e' => e.Agrees limit limit' e'
    | _, _ => False

/-- One run of a machine comes to what two runs come to, of which the first has left a transcript and
the machine that the second goes on with. -/
structure Machine.Joins (m : Machine) (limit : Nat) (source : τ) (first : Transcript)
    (place : σ → τ) (m' : Machine) (limit' : Nat) (source' : σ) : Prop where
  whole : ∀ t last, m'.Performs ⟨limit'⟩ source' t last → ∃ fin,
    m.Performs ⟨limit⟩ source (first ++ t) fin ∧
      last.Prolongs first.report limit' limit place fin
  last : ∀ t fin, m.Performs ⟨limit⟩ source t fin → ∃ t' last,
    m'.Performs ⟨limit'⟩ source' t' last ∧ t = first ++ t' ∧
      last.Prolongs first.report limit' limit place fin

namespace Run

variable {options options' : RunOptions} {r r₁ : Run σ} {t t₁ : Transcript} {fin : FinishedRun σ}
  {m : Machine} {source : σ} {limit limit' : Nat}

/-! ### The turns of an interrupted run -/

omit [InputSource σ] in
theorem atLimit_eq_false_of_le (hle : options'.stepLimit = 0 ∨
      0 < options.stepLimit ∧ options.stepLimit ≤ options'.stepLimit)
    (h : r.atLimit options = false) : r.atLimit options' = false := by
  rw [Bool.eq_false_iff, ne_eq, atLimit_iff] at h ⊢
  omega

theorem turn_of_step_blocked {answer : Except Error (Option String)} {s : σ}
    (hl : r.atLimit options = false) (hs : r.machine.step.1 = .blocked)
    (hc : InputSource.nextChunk r.source { r.machine with blocked := true } = (answer, s)) :
    r.turn options = match answer with
      | .ok (some chunk) => (.refilled chunk, ⟨r.machine.supply chunk, s, r.report + ⟨0, 1⟩⟩)
      | .ok none => (.ended (.error (.inputExhausted r.machine.ip)),
          ⟨{ r.machine with blocked := true }, s, r.report⟩)
      | .error e => (.ended (.error e), ⟨{ r.machine with blocked := true }, s, r.report⟩) := by
  have hstep := Machine.step_eq_of_blocked hs
  rcases answer with e | _ | chunk
  all_goals
    simp [turn, hl, hstep, hc, Machine.supply]
  rfl

theorem turn_refilled_of_nextChunk {chunk : String} {s s₁ : τ}
    (h : r.turn options = (.refilled chunk, r₁)) (hl : r.atLimit options' = false)
    (hs : InputSource.nextChunk s { r.machine with blocked := true } = (.ok (some chunk), s₁)) :
    (⟨r.machine, s, r.report⟩ : Run τ).turn options' =
      (.refilled chunk, ⟨r₁.machine, s₁, r₁.report⟩) := by
  rw [report_of_turn.2 _ _ h, (turn_refilled h).2.1]
  exact turn_of_step_blocked (r := ⟨r.machine, s, r.report⟩) hl (turn_refilled h).1 hs

theorem turn_executed_of_source (s : τ) (h : r.turn options = (.executed, r₁))
    (hl : r.atLimit options' = false) :
    (⟨r.machine, s, r.report⟩ : Run τ).turn options' = (.executed, ⟨r₁.machine, s, r₁.report⟩) := by
  rw [report_of_turn.1 _ h]
  exact turn_of_step_executed hl (turn_executed h).1

/-- A run on a source that hands out the same chunks takes the turns of an interrupted run, up to the
one that ended it. What is left of the chunks shows in the source. -/
theorem Ends.interrupted {f : σ → List String → τ}
    (hf : ∀ s chunk chunks m s₁, InputSource.nextChunk s m = (.ok (some chunk), s₁) →
      InputSource.nextChunk (f s (chunk :: chunks)) m = (.ok (some chunk), f s₁ chunks))
    (h : Ends options r t₁ fin) :
    ∃ r₁ result r₂, Course options r t₁.left r₁ ∧ r₁.turn options = (.ended result, r₂) ∧
      fin = ⟨result, r₂.machine, r₂.source⟩ ∧ r₁.report = r.report + t₁.report ∧
      ∀ options' : RunOptions, (options'.stepLimit = 0 ∨
        0 < options.stepLimit ∧ options.stepLimit ≤ options'.stepLimit) →
      ∀ t fin', Ends options' ⟨r.machine, f r.source t₁.chunks, r.report⟩ t fin' ↔
        ∃ t₂, t = t₁ ++ t₂ ∧ Ends options' ⟨r₁.machine, f r₁.source [], r₁.report⟩ t₂ fin' := by
  induction h with
  | @executed r r' t₁ fin ht _ ih =>
    obtain ⟨r₁, result, r₂, hc, hend, hfin, hreport, hiff⟩ := ih
    refine ⟨r₁, result, r₂, ?_, hend, hfin, ?_, fun options' hle t fin' => ?_⟩
    · have hfirst := Course.executed .start ht
      have hleft : Transcript.left ⟨[r.machine], []⟩ = [] ++ [r'.machine] := by
        simp [Transcript.left, (turn_executed ht).1]
      rw [Transcript.left_append, hleft]
      exact hfirst.trans hc
    · rw [hreport, report_of_turn.1 _ ht, RunReport.add_assoc, Transcript.report_append]
      rfl
    · have hl : r.atLimit options' = false :=
        atLimit_eq_false_of_le hle (atLimit_of_turn (r := r) (by simp [ht]))
      have hturn := turn_executed_of_source (f r.source t₁.chunks) ht hl
      rw [(turn_executed ht).2.1] at hiff
      rw [Transcript.chunks_append, List.nil_append, ends_iff_of_executed hturn]
      simp only [hiff options' hle, Transcript.exists_eq_append_iff]
  | @refilled r r' chunk t₁ fin ht _ ih =>
    obtain ⟨r₁, result, r₂, hc, hend, hfin, hreport, hiff⟩ := ih
    refine ⟨r₁, result, r₂, Course.trans (.refilled .start ht) hc, hend, hfin, ?_,
      fun options' hle t fin' => ?_⟩
    · rw [hreport, report_of_turn.2 _ _ ht, RunReport.add_assoc, Transcript.report_append]
      rfl
    · have hl : r.atLimit options' = false :=
        atLimit_eq_false_of_le hle (atLimit_of_turn (r := r) (by simp [ht]))
      have hnext := hf _ chunk t₁.chunks _ _ (turn_refilled ht).2.2.1
      have hturn := turn_refilled_of_nextChunk ht hl hnext
      rw [Transcript.chunks_append, List.singleton_append, ends_iff_of_refilled hturn]
      simp only [hiff options' hle, Transcript.exists_eq_append_iff]
  | @ended r r₁ result ht =>
    exact ⟨r, result, r₁, .start, ht, rfl, rfl, fun options' _ t fin' => by simp⟩

theorem turn_ended_error {e : Error} (h : r.turn options = (.ended (.error e), r₁))
    (hl : r.atLimit options = false) :
    r.machine.step = (.blocked, r₁.machine) ∧
      (InputSource.nextChunk r.source r₁.machine = (.error e, r₁.source) ∨
        e = .inputExhausted r₁.machine.ip ∧
          InputSource.nextChunk r.source r₁.machine = (.ok none, r₁.source)) := by
  rcases ended_cases h with
    ⟨hl', -, -⟩ | ⟨_, s, hs, hc, rfl, ⟨rfl, he⟩ | ⟨e', rfl, he⟩⟩ | ⟨-, he, -⟩
  · simp [hl] at hl'
  · obtain rfl := Except.error.inj he
    exact ⟨Machine.step_eq_of_blocked hs, .inr ⟨rfl, hc⟩⟩
  · obtain rfl := Except.error.inj he
    exact ⟨Machine.step_eq_of_blocked hs, .inl hc⟩
  · cases he

theorem ends_iff_of_step_blocked {m' : Machine} {report : RunReport} (s : σ)
    (h : m.step = (.blocked, m')) :
    Ends ⟨0⟩ ⟨m, s, report⟩ t fin ↔ Ends ⟨0⟩ ⟨m', s, report⟩ t fin := by
  have hm' : m'.step = (.blocked, m') := by
    have := Machine.step_eq_of_blocked (m := m) (by rw [h])
    obtain rfl := (Prod.mk.inj (h.symm.trans this)).2
    exact Machine.step_of_blocked rfl
  have hturn : (⟨m, s, report⟩ : Run σ).turn ⟨0⟩ = (⟨m', s, report⟩ : Run σ).turn ⟨0⟩ := by
    simp [turn, atLimit_of_zero, h, hm']
  rcases ht : (⟨m', s, report⟩ : Run σ).turn ⟨0⟩ with ⟨_ | chunk | result, r₁⟩
  · have := (turn_executed ht).1
    simp [hm'] at this
  · rw [ends_iff_of_refilled ht, ends_iff_of_refilled (hturn.trans ht)]
  · rw [ends_iff_of_ended ht, ends_iff_of_ended (hturn.trans ht)]

/-! ### The turns after an interruption -/

/-- A run before which something was done that is in a report. -/
def after (first : RunReport) (place : σ → τ) (r : Run σ) : Run τ :=
  ⟨r.machine, place r.source, first + r.report⟩

section

variable {first : RunReport} {place : σ → τ}

theorem turn_after
    (hplace : ∀ s m, InputSource.nextChunk (place s) m =
      ((InputSource.nextChunk s m).1, place (InputSource.nextChunk s m).2))
    (hlimit : (r.after first place).atLimit options' = r.atLimit options) :
    (r.turn options = (.executed, r₁) →
      (r.after first place).turn options' = (.executed, r₁.after first place)) ∧
    (∀ chunk, r.turn options = (.refilled chunk, r₁) →
      (r.after first place).turn options' = (.refilled chunk, r₁.after first place)) ∧
    ∀ result, r.turn options = (.ended result, r₁) → ∃ result',
      (r.after first place).turn options' = (.ended result', r₁.after first place) ∧
      FinishedRun.Prolongs first options.stepLimit options'.stepLimit place
        ⟨result, r₁.machine, r₁.source⟩ ⟨result', r₁.machine, place r₁.source⟩ := by
  cases hl : r.atLimit options with
  | true =>
    rw [turn_of_atLimit hl, turn_of_atLimit (hlimit.trans hl)]
    refine ⟨nofun, nofun, ?_⟩
    rintro result ⟨⟩
    exact ⟨_, rfl, rfl, rfl, .inr ⟨_, rfl, rfl⟩⟩
  | false =>
    have hl' := hlimit.trans hl
    have hasked {answer s}
        (hc : InputSource.nextChunk r.source { r.machine with blocked := true } = (answer, s)) :
        InputSource.nextChunk (r.after first place).source
          { (r.after first place).machine with blocked := true } = (answer, place s) := by
      rw [show (r.after first place).source = place r.source from rfl, hplace]
      simp only [after, hc]
    rcases turn_cases hl with
      ⟨m, hs, ht⟩ | ⟨c, s, hs, hc, ht⟩ | ⟨s, hs, hc, ht⟩ | ⟨e, s, hs, hc, ht⟩ | ⟨hs, ht⟩
    · rw [ht, turn_of_step_executed hl' hs]
      refine ⟨?_, nofun, nofun⟩
      rintro ⟨⟩
      rfl
    · rw [ht, turn_of_step_blocked hl' hs (hasked hc)]
      refine ⟨nofun, ?_, nofun⟩
      rintro chunk ⟨⟩
      rfl
    · rw [ht, turn_of_step_blocked hl' hs (hasked hc)]
      refine ⟨nofun, nofun, ?_⟩
      rintro result ⟨⟩
      exact ⟨_, rfl, rfl, rfl, .inl rfl⟩
    · rw [ht, turn_of_step_blocked hl' hs (hasked hc)]
      refine ⟨nofun, nofun, ?_⟩
      rintro result ⟨⟩
      exact ⟨_, rfl, rfl, rfl, .inl rfl⟩
    · rw [ht, turn_of_step_done hl' hs]
      refine ⟨nofun, nofun, ?_⟩
      rintro result ⟨⟩
      exact ⟨_, rfl, rfl, rfl, rfl⟩

/-- A run on a source that answers in the same way takes the same turns, whatever was done before. -/
theorem Ends.after
    (hplace : ∀ s m, InputSource.nextChunk (place s) m =
      ((InputSource.nextChunk s m).1, place (InputSource.nextChunk s m).2))
    (hlimit : ∀ r : Run σ, (r.after first place).atLimit options' = r.atLimit options)
    (h : Ends options r t fin) :
    ∃ whole, Ends options' (r.after first place) t whole ∧
      fin.Prolongs first options.stepLimit options'.stepLimit place whole := by
  induction h with
  | executed ht _ ih =>
    obtain ⟨whole, h, hp⟩ := ih
    exact ⟨whole, .executed ((turn_after hplace (hlimit _)).1 ht) h, hp⟩
  | refilled ht _ ih =>
    obtain ⟨whole, h, hp⟩ := ih
    exact ⟨whole, .refilled ((turn_after hplace (hlimit _)).2.1 _ ht) h, hp⟩
  | ended ht =>
    obtain ⟨result', ht', hp⟩ := (turn_after hplace (hlimit _)).2.2 _ ht
    exact ⟨_, .ended ht', hp⟩

theorem exists_ends_of_after
    (hplace : ∀ s m, InputSource.nextChunk (place s) m =
      ((InputSource.nextChunk s m).1, place (InputSource.nextChunk s m).2))
    (hlimit : ∀ r : Run σ, (r.after first place).atLimit options' = r.atLimit options)
    {whole : FinishedRun τ} (h : Ends options' (r.after first place) t whole) :
    ∃ fin, Ends options r t fin ∧
      fin.Prolongs first options.stepLimit options'.stepLimit place whole := by
  generalize hr : r.after first place = r' at h
  induction h generalizing r with
  | @executed _ _ _ _ ht _ ih =>
    subst hr
    rcases ht' : r.turn options with ⟨_ | chunk | result, r₁⟩
    · cases ((turn_after hplace (hlimit r)).1 ht').symm.trans ht
      obtain ⟨fin, h, hp⟩ := ih rfl
      exact ⟨fin, .executed ht' h, hp⟩
    · cases ((turn_after hplace (hlimit r)).2.1 _ ht').symm.trans ht
    · obtain ⟨_, hend, -⟩ := (turn_after hplace (hlimit r)).2.2 _ ht'
      cases hend.symm.trans ht
  | @refilled _ _ _ _ _ ht _ ih =>
    subst hr
    rcases ht' : r.turn options with ⟨_ | chunk | result, r₁⟩
    · cases ((turn_after hplace (hlimit r)).1 ht').symm.trans ht
    · cases ((turn_after hplace (hlimit r)).2.1 _ ht').symm.trans ht
      obtain ⟨fin, h, hp⟩ := ih rfl
      exact ⟨fin, .refilled ht' h, hp⟩
    · obtain ⟨_, hend, -⟩ := (turn_after hplace (hlimit r)).2.2 _ ht'
      cases hend.symm.trans ht
  | @ended _ _ _ ht =>
    subst hr
    rcases ht' : r.turn options with ⟨_ | chunk | result, r₁⟩
    · cases ((turn_after hplace (hlimit r)).1 ht').symm.trans ht
    · cases ((turn_after hplace (hlimit r)).2.1 _ ht').symm.trans ht
    · obtain ⟨_, hend, hp⟩ := (turn_after hplace (hlimit r)).2.2 _ ht'
      cases hend.symm.trans ht
      exact ⟨_, .ended ht', hp⟩

theorem joins_of_ends {whole : τ} {first : Transcript} {m' : Machine} {source' : σ}
    (hplace : ∀ s m, InputSource.nextChunk (place s) m =
      ((InputSource.nextChunk s m).1, place (InputSource.nextChunk s m).2))
    (hlimit : limit = 0 ∧ limit' = 0 ∨
      0 < limit' ∧ limit = first.report.steps + limit')
    (hwhole : ∀ t fin, Ends ⟨limit⟩ ⟨m, whole, {}⟩ t fin ↔ ∃ t', t = first ++ t' ∧
      Ends ⟨limit⟩ ((⟨m', source', {}⟩ : Run σ).after first.report place) t' fin) :
    m.Joins limit whole first place m' limit' source' := by
  have hbound (r : Run σ) :
      (r.after first.report place).atLimit ⟨limit⟩ = r.atLimit ⟨limit'⟩ := by
    rw [Bool.eq_iff_iff, atLimit_iff, atLimit_iff]
    simp only [Run.after, RunReport.steps_add]
    omega
  constructor
  · intro t last h
    rw [performs_iff] at h
    obtain ⟨fin, h, hp⟩ := Ends.after hplace hbound h
    exact ⟨fin, performs_iff.2 ((hwhole _ _).2 ⟨t, rfl, h⟩), hp⟩
  · intro t fin h
    obtain ⟨t', rfl, h'⟩ := (hwhole _ _).1 (performs_iff.1 h)
    obtain ⟨last, hlast, hp⟩ := exists_ends_of_after hplace hbound h'
    exact ⟨t', last, performs_iff.2 hlast, rfl, hp⟩

end

/-! ### The ways to be interrupted -/

theorem Course.steps_le {ms : List Machine} (h : Course options r ms r₁)
    (hpos : 0 < options.stepLimit) (hr : r.report.steps ≤ options.stepLimit) :
    r₁.report.steps ≤ options.stepLimit := by
  induction h with
  | start => exact hr
  | @executed ms r₁ r₂ _ ht ih =>
    have hl : r₁.atLimit options = false := atLimit_of_turn (by simp [ht])
    have hip := (Machine.blocked_of_step_executed (turn_executed ht).1).2.2.2
    rw [Bool.eq_false_iff, ne_eq, atLimit_iff] at hl
    rw [(turn_executed ht).2.2]
    omega
  | refilled _ ht ih => rwa [(turn_refilled ht).2.2.2]

theorem stopped_joins {bound ip : Nat} {m₁ : Machine} {s₁ : σ} (hpos : 0 < limit)
    (h : Ends ⟨limit⟩ ⟨m, source, {}⟩ t₁ ⟨.error (.stepLimitExceeded bound ip), m₁, s₁⟩) :
    (∃ r, Course ⟨limit⟩ ⟨m, source, {}⟩ t₁.left r ∧ r.machine.step = (.blocked, m₁) ∧
      InputSource.nextChunk r.source m₁ = (.error (.stepLimitExceeded bound ip), s₁)) ∨
    bound = limit ∧ ip = m₁.ip ∧ t₁.executed.length = limit ∧
      (∀ limit', 0 < limit' → m.Joins (limit + limit') source t₁ id m₁ limit' s₁) ∧
      m.Joins 0 source t₁ id m₁ 0 s₁ := by
  obtain ⟨r₁, result, r₂, hc, hend, hfin, hreport, hiff⟩ :=
    h.interrupted (f := fun s _ => s) fun _ _ _ _ _ h => h
  obtain ⟨rfl, rfl, rfl⟩ : result = .error (.stepLimitExceeded bound ip) ∧ r₂.machine = m₁ ∧
      r₂.source = s₁ := by
    simpa [eq_comm] using hfin
  rw [RunReport.empty_add] at hreport
  cases hl : r₁.atLimit ⟨limit⟩ with
  | false =>
    obtain ⟨hstep, hnext | ⟨he, -⟩⟩ := turn_ended_error hend hl
    · exact .inl ⟨r₁, hc, hstep, hnext⟩
    · cases he
  | true =>
    right
    cases (turn_of_atLimit hl).symm.trans hend
    have hsteps : t₁.executed.length = limit := by
      have hle : r₁.report.steps ≤ limit := hc.steps_le hpos (Nat.zero_le _)
      have hge := (atLimit_iff.1 hl).2.1
      rw [hreport] at hle hge
      exact Nat.le_antisymm hle hge
    have hafter : (⟨r₁.machine, r₁.source, {}⟩ : Run σ).after t₁.report id = r₁ := by
      simp [Run.after, ← hreport]
    refine ⟨rfl, rfl, hsteps, fun limit' hpos' => ?_, ?_⟩
    · refine joins_of_ends (fun _ _ => rfl) (.inr ⟨hpos', by rw [← hsteps]; rfl⟩) ?_
      rw [hafter]
      exact hiff ⟨limit + limit'⟩ (.inr ⟨hpos, Nat.le_add_right _ _⟩)
    · refine joins_of_ends (fun _ _ => rfl) (.inl ⟨rfl, rfl⟩) ?_
      rw [hafter]
      exact hiff ⟨0⟩ (.inl rfl)

/-- A run without a bound that fails does so at a request for input and leaves the machine as the
source was shown it. A run on a source that hands out the same chunks comes to that machine too. -/
theorem failed_at_request {f : σ → List String → τ} {e : Error} {m₁ : Machine} {s₁ : σ}
    (hf : ∀ s chunk chunks m s₁, InputSource.nextChunk s m = (.ok (some chunk), s₁) →
      InputSource.nextChunk (f s (chunk :: chunks)) m = (.ok (some chunk), f s₁ chunks))
    (h : Ends ⟨0⟩ ⟨m, source, {}⟩ t₁ ⟨.error e, m₁, s₁⟩) :
    ∃ r, Course ⟨0⟩ ⟨m, source, {}⟩ t₁.left r ∧ r.machine.step = (.blocked, m₁) ∧
      (InputSource.nextChunk r.source m₁ = (.error e, s₁) ∨
        e = .inputExhausted m₁.ip ∧ InputSource.nextChunk r.source m₁ = (.ok none, s₁)) ∧
      ∀ t fin, Ends ⟨0⟩ ⟨m, f source t₁.chunks, {}⟩ t fin ↔
        ∃ t', t = t₁ ++ t' ∧ Ends ⟨0⟩ ⟨m₁, f r.source [], t₁.report⟩ t' fin := by
  obtain ⟨r, result, r₂, hc, hend, hfin, hreport, hiff⟩ := h.interrupted hf
  obtain ⟨rfl, rfl, rfl⟩ : result = .error e ∧ r₂.machine = m₁ ∧ r₂.source = s₁ := by
    simpa [eq_comm] using hfin
  obtain ⟨hstep, hanswer⟩ := turn_ended_error hend (atLimit_of_zero r)
  refine ⟨r, hc, hstep, hanswer, fun t fin => ?_⟩
  rw [RunReport.empty_add] at hreport
  have := hiff ⟨0⟩ (.inl rfl) t fin
  rw [this, hreport]
  simp only [ends_iff_of_step_blocked (f r.source []) hstep]

theorem nextChunk_script (s : Script) (m : Machine) :
    InputSource.nextChunk s m = (.ok s.chunks.head?, ⟨s.chunks.tail⟩) := by
  obtain ⟨_ | ⟨chunk, rest⟩⟩ := s <;> rfl

theorem Ends.script_chunks {r : Run Script} {fin : FinishedRun Script}
    (h : Ends options r t fin) : r.source.chunks = t.chunks ++ fin.source.chunks := by
  induction h with
  | executed ht _ ih => rwa [(turn_executed ht).2.1] at ih
  | refilled ht _ ih =>
    have hnext := (turn_refilled ht).2.2.1
    simp only [nextChunk_script, Prod.mk.injEq, Except.ok.injEq, List.head?_eq_some_iff] at hnext
    obtain ⟨⟨rest, hchunks⟩, hrest⟩ := hnext
    rw [← hrest, hchunks] at ih
    change rest = _ at ih
    rw [hchunks, ih]
    simp
  | ended ht =>
    rcases ended_cases ht with ⟨-, -, rfl⟩ | ⟨_, s, -, hc, rfl, hanswer⟩ | ⟨-, -, rfl⟩
    · rfl
    · rw [nextChunk_script] at hc
      obtain ⟨rfl, rfl⟩ := Prod.mk.inj hc
      rcases hanswer with ⟨hnone, -⟩ | ⟨e, he, -⟩
      · rw [Except.ok.injEq, List.head?_eq_none_iff] at hnone
        simp [hnone]
      · cases he
    · rfl

theorem exhausted_joins {A : List String} {t₁ : Transcript} {ip : Nat} {m₁ : Machine}
    {s₁ : Script}
    (h : Ends ⟨0⟩ ⟨m, (⟨A⟩ : Script), {}⟩ t₁ ⟨.error (.inputExhausted ip), m₁, s₁⟩) :
    t₁.chunks = A ∧ s₁ = ⟨[]⟩ ∧
      ∀ B, m.Joins 0 (⟨A ++ B⟩ : Script) t₁ id m₁ 0 (⟨B⟩ : Script) := by
  have hchunks := h.script_chunks
  have hempty : s₁ = ⟨[]⟩ := by
    obtain ⟨r, -, -, hanswer, -⟩ :=
      failed_at_request (f := fun s _ => s) (fun _ _ _ _ _ h => h) h
    simp only [nextChunk_script] at hanswer
    rcases hanswer with hnone | ⟨-, hnone⟩
    · simp at hnone
    · simp only [Prod.mk.injEq, Except.ok.injEq, List.head?_eq_none_iff] at hnone
      simp [← hnone.2, hnone.1]
  subst hempty
  rw [List.append_nil] at hchunks
  refine ⟨hchunks.symm, rfl, fun B => ?_⟩
  obtain ⟨r, -, -, -, hiff⟩ :=
    failed_at_request (f := fun _ chunks => (⟨chunks ++ B⟩ : Script)) (fun _ _ _ _ _ _ => rfl) h
  refine joins_of_ends (fun _ _ => rfl) (.inl ⟨rfl, rfl⟩) ?_
  simpa [Run.after, ← hchunks] using hiff

theorem flush_error {f f' : Forwarder ω} {e : Error} (h : f.flush m = (.error e, f')) :
    ∃ cause, e = .output cause := by
  rcases hs : f.send m with ⟨cause | ⟨⟩, f₁⟩
  · simp only [Forwarder.flush, hs, Prod.mk.injEq, Except.error.injEq] at h
    exact ⟨cause, h.1.symm⟩
  · rcases hw : ByteWriter.flush f₁.writer with ⟨cause | ⟨⟩, w⟩
    · cases (Forwarder.flush_of_error hs hw).symm.trans h
      exact ⟨cause, rfl⟩
    · cases (Forwarder.flush_of_ok hs hw).symm.trans h

/-- A request of a forwarding source is one of the source behind it, unless a flush fails before
that one is asked. -/
theorem nextChunk_forwarding {s s' : ForwardingSource ω σ}
    {answer : Except Error (Option String)} (h : InputSource.nextChunk s m = (answer, s')) :
    InputSource.nextChunk s.source m = (answer, s'.source) ∨
      (∃ cause, answer = .error (.output cause)) ∧ s'.source = s.source := by
  rcases hf : s.forwarder.flush m with ⟨e | ⟨⟩, f⟩
  · simp only [InputSource.nextChunk, hf, Prod.mk.injEq] at h
    obtain ⟨cause, rfl⟩ := flush_error hf
    right
    rw [← h.1, ← h.2]
    exact ⟨⟨cause, rfl⟩, rfl⟩
  · simp only [InputSource.nextChunk, hf, Prod.mk.injEq] at h
    left
    rw [← h.1, ← h.2]

theorem forwarding_joins {f f₁ : Forwarder ω} {e : Error} {m₁ : Machine} {s₁ : σ}
    (h : Ends ⟨0⟩ ⟨m, (⟨f, source⟩ : ForwardingSource ω σ), {}⟩ t₁
      ⟨.error e, m₁, ⟨f₁, s₁⟩⟩) :
    Ends ⟨0⟩ ⟨m, source, {}⟩ t₁ ⟨.error e, m₁, s₁⟩ ∨
      (∃ cause, e = .output cause) ∧ m.Joins 0 source t₁ id m₁ 0 s₁ := by
  obtain ⟨r, -, hstep, hanswer, hiff⟩ :=
    failed_at_request (f := fun s _ => s.source) (fun s chunk _ m s₁ hnext => by
      rcases nextChunk_forwarding hnext with h | ⟨⟨_, h⟩, -⟩
      · exact h
      · cases h) h
  have hm₁ := Machine.step_eq_of_blocked (m := r.machine) (by rw [hstep])
  obtain rfl := (Prod.mk.inj (hm₁.symm.trans hstep)).2
  have asked {answer : Except Error (Option String)}
      (hnext : InputSource.nextChunk r.source.source { r.machine with blocked := true } =
        (answer, s₁)) :=
    turn_of_step_blocked (r := ⟨{ r.machine with blocked := true }, r.source.source, t₁.report⟩)
      (atLimit_of_zero _) (by rw [Machine.step_of_blocked rfl]) hnext
  rcases hanswer with herror | ⟨rfl, hnone⟩
  · rcases nextChunk_forwarding herror with hnext | ⟨⟨cause, he⟩, hsource⟩
    · exact .inl ((hiff _ _).2 ⟨{}, by simp, .ended (asked hnext)⟩)
    · right
      obtain rfl := Except.error.inj he
      refine ⟨⟨cause, rfl⟩, joins_of_ends (fun _ _ => rfl) (.inl ⟨rfl, rfl⟩) ?_⟩
      change s₁ = _ at hsource
      simpa [Run.after, hsource] using hiff
  · rcases nextChunk_forwarding hnone with hnext | ⟨⟨_, h⟩, -⟩
    · exact .inl ((hiff _ _).2 ⟨{}, by simp, .ended (asked hnext)⟩)
    · cases h

end Run

/-! ### Sources that fail for what lies below them -/

/-- Whatever a source fails for lies below it: it never reports the end of a run. -/
def InputSource.FailsBelow (σ : Type) [InputSource σ] : Prop :=
  ∀ (s s₁ : σ) m e, nextChunk s m = (.error e, s₁) → e.cause?.isSome = true

theorem Script.failsBelow : InputSource.FailsBelow Script := by
  intro s s₁ m e h
  rw [Run.nextChunk_script] at h
  cases h

theorem Lines.failsBelow : InputSource.FailsBelow Lines := by
  rintro ⟨_ | ⟨b, rest⟩⟩ s₁ m e h
  · cases h
  · obtain ⟨herror, -⟩ := Prod.mk.inj h
    rw [decodeLine] at herror
    split at herror
    · cases herror
    · obtain rfl := Except.error.inj herror
      rfl

theorem InputSource.FailsBelow.forwarding (h : FailsBelow σ) :
    FailsBelow (ForwardingSource ω σ) := by
  intro s s₁ m e hnext
  rcases Run.nextChunk_forwarding hnext with hbehind | ⟨⟨cause, he⟩, -⟩
  · exact h _ _ _ _ hbehind
  · obtain rfl := Except.error.inj he
    rfl

/-- On such a source a run within a bound that fails for it took all its steps, and goes on as if
there had been no bound. -/
theorem Machine.Performs.joins_of_stopped {m m₁ : Machine} {limit bound ip : Nat} {source s₁ : σ}
    {t₁ : Transcript} (hσ : InputSource.FailsBelow σ) (hpos : 0 < limit)
    (h : m.Performs ⟨limit⟩ source t₁ ⟨.error (.stepLimitExceeded bound ip), m₁, s₁⟩) :
    bound = limit ∧ ip = m₁.ip ∧ t₁.executed.length = limit ∧
      (∀ limit', 0 < limit' → m.Joins (limit + limit') source t₁ id m₁ limit' s₁) ∧
      m.Joins 0 source t₁ id m₁ 0 s₁ := by
  rcases Run.stopped_joins hpos (Run.performs_iff.1 h) with ⟨r, -, -, hnext⟩ | hjoins
  · cases hσ _ _ _ _ hnext
  · exact hjoins

/-- Interrupted runs join. A run that was stopped by its bound, the bound being its own and not one
that the source reports, goes on with a further bound as if the two had been one. A run that has used
up a script goes on with more chunks as if they had been in it. A run that fails leaves the machine as
the source was shown it, and goes on with any source as if that one had come after the chunks that were
supplied. A flush that fails in between is no different: the source behind the forwarder goes on as if
it had not been. -/
theorem interrupted_runs_join (m : Machine) (source : σ) :
    (∀ limit t₁ bound ip m₁ s₁, 0 < limit →
      m.Performs ⟨limit⟩ source t₁ ⟨.error (.stepLimitExceeded bound ip), m₁, s₁⟩ →
      (∃ r, Run.Course ⟨limit⟩ ⟨m, source, {}⟩ t₁.left r ∧ r.machine.step = (.blocked, m₁) ∧
        InputSource.nextChunk r.source m₁ = (.error (.stepLimitExceeded bound ip), s₁)) ∨
      bound = limit ∧ ip = m₁.ip ∧ t₁.executed.length = limit ∧
        (∀ limit', 0 < limit' → m.Joins (limit + limit') source t₁ id m₁ limit' s₁) ∧
        m.Joins 0 source t₁ id m₁ 0 s₁) ∧
    (∀ A t₁ ip m₁ s₁,
      m.Performs ⟨0⟩ (⟨A⟩ : Script) t₁ ⟨.error (.inputExhausted ip), m₁, s₁⟩ →
      t₁.chunks = A ∧ s₁ = ⟨[]⟩ ∧
        ∀ B, m.Joins 0 (⟨A ++ B⟩ : Script) t₁ id m₁ 0 (⟨B⟩ : Script)) ∧
    (∀ t₁ e m₁ s₁, m.Performs ⟨0⟩ source t₁ ⟨.error e, m₁, s₁⟩ →
      (∃ r, Run.Course ⟨0⟩ ⟨m, source, {}⟩ t₁.left r ∧ r.machine.step = (.blocked, m₁) ∧
        (InputSource.nextChunk r.source m₁ = (.error e, s₁) ∨
          e = .inputExhausted m₁.ip ∧ InputSource.nextChunk r.source m₁ = (.ok none, s₁))) ∧
      ∀ rest : τ,
        m.Joins 0 (⟨t₁.chunks, rest⟩ : QueuedSource τ) t₁ (QueuedSource.mk []) m₁ 0 rest) ∧
    ∀ (f : Forwarder ω) t₁ e m₁ f₁ s₁,
      m.Performs ⟨0⟩ (⟨f, source⟩ : ForwardingSource ω σ) t₁ ⟨.error e, m₁, ⟨f₁, s₁⟩⟩ →
      m.Performs ⟨0⟩ source t₁ ⟨.error e, m₁, s₁⟩ ∨
        (∃ cause, e = .output cause) ∧ m.Joins 0 source t₁ id m₁ 0 s₁ := by
  simp only [Run.performs_iff]
  refine ⟨fun limit t₁ bound ip m₁ s₁ hpos h => Run.stopped_joins hpos h,
    fun A t₁ ip m₁ s₁ h => Run.exhausted_joins h, fun t₁ e m₁ s₁ h => ⟨?_, fun rest => ?_⟩,
    fun f t₁ e m₁ f₁ s₁ h => Run.forwarding_joins h⟩
  · obtain ⟨r, hc, hstep, hanswer, -⟩ :=
      Run.failed_at_request (f := fun s _ => s) (fun _ _ _ _ _ h => h) h
    exact ⟨r, hc, hstep, hanswer⟩
  · obtain ⟨r, -, -, -, hiff⟩ :=
      Run.failed_at_request (f := fun _ chunks => (⟨chunks, rest⟩ : QueuedSource τ))
        (fun _ _ _ _ _ _ => rfl) h
    refine Run.joins_of_ends (fun _ _ => rfl) (.inl ⟨rfl, rfl⟩) ?_
    simpa [Run.after] using hiff

/-- A program that is stopped after its first step, and one that waits for input before it goes on. -/
theorem interrupted_runs_join_reading :
    let m := Machine.load ⟨#['+', ',', '.']⟩
    (∃ t₁ m₁, m.Performs ⟨1⟩ (⟨["a"]⟩ : Script) t₁
        ⟨.error (.stepLimitExceeded 1 1), m₁, ⟨["a"]⟩⟩ ∧
      m.Joins 3 (⟨["a"]⟩ : Script) t₁ id m₁ 2 (⟨["a"]⟩ : Script) ∧
      ∃ t last, m₁.Performs ⟨2⟩ (⟨["a"]⟩ : Script) t last ∧ last.result = .ok ⟨2, 1⟩) ∧
    ∃ t₁ m₁, m.Performs ⟨0⟩ ({} : Script) t₁ ⟨.error (.inputExhausted 1), m₁, {}⟩ ∧
      m.Joins 0 (⟨["a"]⟩ : Script) t₁ id m₁ 0 (⟨["a"]⟩ : Script) := by
  intro m
  have hspec := interrupted_runs_join (τ := Script) (ω := ByteBuffer) m (⟨["a"]⟩ : Script)
  constructor
  · have hrun : ∃ t₁ m₁, m.Performs ⟨1⟩ (⟨["a"]⟩ : Script) t₁
          ⟨.error (.stepLimitExceeded 1 1), m₁, ⟨["a"]⟩⟩ ∧
        ∃ t last, m₁.Performs ⟨2⟩ (⟨["a"]⟩ : Script) t last ∧ last.result = .ok ⟨2, 1⟩ :=
      ⟨_, _, ⟨2, rfl⟩, _, _, ⟨4, rfl⟩, rfl⟩
    obtain ⟨t₁, m₁, hrun, hnext⟩ := hrun
    rcases hspec.1 1 _ _ _ _ _ (by decide) hrun with ⟨r, -, -, hs⟩ | ⟨-, -, -, hjoins, -⟩
    · rw [Run.nextChunk_script] at hs
      cases hs
    · exact ⟨t₁, m₁, hrun, hjoins 2 (by decide), hnext⟩
  · have hrun : ∃ t₁ m₁, m.Performs ⟨0⟩ ({} : Script) t₁
        ⟨.error (.inputExhausted 1), m₁, {}⟩ := ⟨_, _, ⟨2, rfl⟩⟩
    obtain ⟨t₁, m₁, hrun⟩ := hrun
    exact ⟨t₁, m₁, hrun, (hspec.2.1 _ _ _ _ _ hrun).2.2 ["a"]⟩

end Brainfuck
