import Brainfuck.Proofs.Run.Resume

/-!
# Feeding a machine by hand

A machine can be run until it stops, supplied with the next chunk of input when it waits, and run
again. A bounded run without a bound on a script of the same chunks does the same to the machine,
although it never leaves its loop: it ends when this procedure does, in the same way.
-/

namespace Brainfuck

namespace Machine

structure Feeding where
  /-- The machines on which the runs executed a step, and the chunks that were supplied. -/
  transcript : Transcript
  /-- How the last run ended. -/
  outcome : Outcome
  machine : Machine
  /-- The chunks that were not supplied. -/
  rest : List String

def noteExecuted (ms : List Machine) (m : Machine) : List Machine :=
  if m.step.1 = .executed then ms ++ [m] else ms

/-- Run a machine, and as long as it waits and there are chunks left supply one and run it again. The
runs are those of `run` (`runWith_eq_map`). -/
def feed (fuel : Nat) (chunks : List String) (m : Machine) : Option Feeding :=
  match runWith noteExecuted fuel [] m, chunks with
  | none, _ => none
  | some (ms, .completed, m), chunks => some ⟨⟨ms, []⟩, .completed, m, chunks⟩
  | some (ms, .blocked, m), [] => some ⟨⟨ms, []⟩, .blocked, m, []⟩
  | some (ms, .blocked, m), chunk :: rest =>
      (feed fuel rest (m.supply chunk)).map fun f =>
        { f with transcript := ⟨ms, [chunk]⟩ ++ f.transcript }
termination_by structural chunks

/-- A run that ends as the feeding of a machine does, after what is in a report. -/
def Feeding.finished (f : Feeding) (first : RunReport) : FinishedRun Script where
  result := match f.outcome with
    | .completed => .ok (first + f.transcript.report)
    | .blocked => .error (.inputExhausted f.machine.ip)
  machine := f.machine
  source := ⟨f.rest⟩

/-- How a feeding stands to the chunks that it started with. -/
structure Feeding.Fits (f : Feeding) (chunks : List String) : Prop where
  chunks_eq : chunks = f.transcript.chunks ++ f.rest
  rewound : f.outcome = .completed → f.machine.ip = 0
  waiting : f.outcome = .blocked → f.machine.blocked = true ∧ f.rest = []

variable {σ : Type} {m m₁ m' : Machine} {fuel fuel' : Nat} {ms seen : List Machine} {o : Outcome}
  {chunks : List String} {f : Feeding}

/-! ### One run -/

theorem runWith_note_of_executed (h : m.step = (.executed, m₁)) :
    runWith noteExecuted (fuel + 1) seen m = runWith noteExecuted fuel (seen ++ [m]) m₁ := by
  simp [runWith, noteExecuted, h]

theorem runWith_note_of_ne (h : m.step.1 ≠ .executed) :
    runWith noteExecuted (fuel + 1) seen m = some (seen, m.step.2.finish) := by
  rcases hs : m.step with ⟨_ | _ | _, m₁⟩
  · simp [hs] at h
  · simp [runWith, noteExecuted, hs]
  · simp [runWith, noteExecuted, hs]

theorem runWith_note_of_blocked (h : m.step.1 = .blocked) :
    runWith noteExecuted (fuel + 1) seen m = some (seen, .blocked, { m with blocked := true }) := by
  rw [runWith_note_of_ne (by simp [h]), finish_step_of_blocked h]

theorem runWith_note_append (seen ms : List Machine) :
    runWith noteExecuted fuel (seen ++ ms) m =
      (runWith noteExecuted fuel ms m).map (Prod.map (seen ++ ·) id) := by
  induction fuel generalizing ms m with
  | zero => rfl
  | succ fuel ih =>
    by_cases hs : m.step.1 = .executed
    · have hstep : m.step = (.executed, m.step.2) := Prod.ext hs rfl
      rw [runWith_note_of_executed hstep, runWith_note_of_executed hstep, List.append_assoc, ih]
    · rw [runWith_note_of_ne hs, runWith_note_of_ne hs]
      rfl

theorem runWith_mono {x : σ × Outcome × Machine} {observe : σ → Machine → σ} {s : σ}
    (h : runWith observe fuel s m = some x) (hle : fuel ≤ fuel') :
    runWith observe fuel' s m = some x := by
  induction fuel generalizing fuel' s m with
  | zero => simp [runWith] at h
  | succ fuel ih =>
    obtain ⟨n, rfl⟩ : ∃ n, fuel' = n + 1 := ⟨fuel' - 1, by omega⟩
    simp only [runWith] at h ⊢
    rcases hs : m.step with ⟨_ | _ | _, m₁⟩
    · simp only [hs] at h ⊢
      exact ih h (by omega)
    · simpa only [hs] using h
    · simpa only [hs] using h

/-- A run of a machine takes as many turns of a bounded run as it executes steps, and is then at a
machine that executes none. -/
theorem exists_ends_of_runWith (h : runWith noteExecuted fuel seen m = some (ms, o, m')) :
    ∃ ms' m₁, ms = seen ++ ms' ∧ m₁.step.1 ≠ .executed ∧ m₁.step.2.finish = (o, m') ∧
      ∀ (s : Script) report t fin, Run.Ends ⟨0⟩ ⟨m, s, report⟩ t fin ↔ ∃ t', t = ⟨ms', []⟩ ++ t' ∧
        Run.Ends ⟨0⟩ ⟨m₁, s, report + ⟨ms'.length, 0⟩⟩ t' fin := by
  induction fuel generalizing seen m with
  | zero => simp [runWith] at h
  | succ fuel ih =>
    by_cases hs : m.step.1 = .executed
    · have hstep : m.step = (.executed, m.step.2) := Prod.ext hs rfl
      rw [runWith_note_of_executed hstep] at h
      obtain ⟨ms', m₁, rfl, hne, hfin, hiff⟩ := ih h
      refine ⟨m :: ms', m₁, by simp, hne, hfin, fun s report t fin => ?_⟩
      have hturn := Run.turn_of_step_executed (r := ⟨m, s, report⟩) (Run.atLimit_of_zero _) hstep
      rw [Run.ends_iff_of_executed hturn]
      have hreport : (⟨report.steps + 1, report.refills⟩ : RunReport) + ⟨ms'.length, 0⟩ =
          report + ⟨(m :: ms').length, 0⟩ := by
        cases report
        simp [Nat.add_assoc, Nat.add_comm 1]
      simp only [hiff, hreport, Transcript.exists_eq_append_iff]
      rfl
    · rw [runWith_note_of_ne hs] at h
      simp only [Option.some.injEq, Prod.mk.injEq] at h
      obtain ⟨rfl, hfin⟩ := h
      refine ⟨[], m, by simp, hs, hfin, fun s report t fin => ?_⟩
      simp

theorem ip_eq_zero_of_completed (h : runWith noteExecuted fuel seen m = some (ms, .completed, m')) :
    m'.ip = 0 := by
  obtain ⟨_, m₁, -, hs, hf, -⟩ := exists_ends_of_runWith h
  rcases finish_step_cases hs hf with ⟨-, -, rfl⟩ | ⟨ho, -⟩
  · rfl
  · cases ho

theorem blocked_of_blocked (h : runWith noteExecuted fuel seen m = some (ms, .blocked, m')) :
    m'.blocked = true := by
  obtain ⟨_, m₁, -, hs, hf, -⟩ := exists_ends_of_runWith h
  rcases finish_step_cases hs hf with ⟨ho, -⟩ | ⟨-, -, rfl⟩
  · cases ho
  · rfl

/-! ### All runs -/

theorem feed_of_none (h : runWith noteExecuted fuel [] m = none) : feed fuel chunks m = none := by
  rw [feed.eq_def, h]

theorem feed_of_completed (h : runWith noteExecuted fuel [] m = some (ms, .completed, m')) :
    feed fuel chunks m = some ⟨⟨ms, []⟩, .completed, m', chunks⟩ := by
  rw [feed.eq_def, h]

theorem feed_nil_of_blocked (h : runWith noteExecuted fuel [] m = some (ms, .blocked, m')) :
    feed fuel [] m = some ⟨⟨ms, []⟩, .blocked, m', []⟩ := by
  rw [feed.eq_def, h]

theorem feed_cons_of_blocked {chunk : String} {rest : List String}
    (h : runWith noteExecuted fuel [] m = some (ms, .blocked, m')) :
    feed fuel (chunk :: rest) m = (feed fuel rest (m'.supply chunk)).map fun f =>
      { f with transcript := ⟨ms, [chunk]⟩ ++ f.transcript } := by
  rw [feed.eq_def, h]

/-- What holds of the last run, and of each earlier one if it holds of what comes after it, holds of a
feeding that comes to an end. -/
theorem feed_induction {P : Machine → List String → Feeding → Prop}
    (completed : ∀ m chunks ms m', runWith noteExecuted fuel [] m = some (ms, .completed, m') →
      P m chunks ⟨⟨ms, []⟩, .completed, m', chunks⟩)
    (blocked : ∀ m ms m', runWith noteExecuted fuel [] m = some (ms, .blocked, m') →
      P m [] ⟨⟨ms, []⟩, .blocked, m', []⟩)
    (supplied : ∀ m chunk rest ms m' f, runWith noteExecuted fuel [] m = some (ms, .blocked, m') →
      feed fuel rest (m'.supply chunk) = some f → P (m'.supply chunk) rest f →
      P m (chunk :: rest) { f with transcript := ⟨ms, [chunk]⟩ ++ f.transcript })
    (h : feed fuel chunks m = some f) : P m chunks f := by
  induction chunks generalizing m f with
  | nil =>
    rcases hrun : runWith noteExecuted fuel [] m with _ | ⟨ms, _ | _, m'⟩
    · simp [feed_of_none hrun] at h
    · rw [feed_of_completed hrun] at h
      cases h
      exact completed m [] ms m' hrun
    · rw [feed_nil_of_blocked hrun] at h
      cases h
      exact blocked m ms m' hrun
  | cons chunk rest ih =>
    rcases hrun : runWith noteExecuted fuel [] m with _ | ⟨ms, _ | _, m'⟩
    · simp [feed_of_none hrun] at h
    · rw [feed_of_completed hrun] at h
      cases h
      exact completed m (chunk :: rest) ms m' hrun
    · rw [feed_cons_of_blocked hrun] at h
      obtain ⟨f', hf', rfl⟩ := Option.map_eq_some_iff.1 h
      exact supplied m chunk rest ms m' f' hrun hf' (ih hf')

theorem turn_of_finish (hs : m₁.step.1 ≠ .executed) (hf : m₁.step.2.finish = (o, m'))
    (s : Script) (report : RunReport) :
    (⟨m₁, s, report⟩ : Run Script).turn ⟨0⟩ = match o, s with
      | .completed, s => (.ended (.ok report), ⟨m', s, report⟩)
      | .blocked, ⟨[]⟩ => (.ended (.error (.inputExhausted m'.ip)), ⟨m', ⟨[]⟩, report⟩)
      | .blocked, ⟨chunk :: rest⟩ =>
          (.refilled chunk, ⟨m'.supply chunk, ⟨rest⟩, report + ⟨0, 1⟩⟩) := by
  have hl := Run.atLimit_of_zero (⟨m₁, s, report⟩ : Run Script)
  rcases finish_step_cases hs hf with ⟨rfl, hdone, -⟩ | ⟨rfl, hblocked, rfl⟩
  · rw [(step_eq_of_done hdone).1] at hf
    rw [Run.turn_of_step_done hl hdone, hf]
  · rw [Run.turn_of_step_blocked hl hblocked (Run.nextChunk_script s _)]
    obtain ⟨_ | ⟨chunk, rest⟩⟩ := s <;> rfl

theorem ends_of_feed (h : feed fuel chunks m = some f) (report : RunReport) :
    Run.Ends ⟨0⟩ ⟨m, ⟨chunks⟩, report⟩ f.transcript (f.finished report) := by
  refine feed_induction (P := fun m chunks f => ∀ report,
    Run.Ends ⟨0⟩ ⟨m, ⟨chunks⟩, report⟩ f.transcript (f.finished report)) ?_ ?_ ?_ h report
  · intro m chunks ms m' hrun report
    obtain ⟨_, m₁, rfl, hs, hf, hiff⟩ := exists_ends_of_runWith hrun
    have hturn := turn_of_finish hs hf ⟨chunks⟩ (report + ⟨ms.length, 0⟩)
    exact (hiff _ _ _ _).2 ⟨{}, by simp, .ended hturn⟩
  · intro m ms m' hrun report
    obtain ⟨_, m₁, rfl, hs, hf, hiff⟩ := exists_ends_of_runWith hrun
    have hturn := turn_of_finish hs hf ⟨[]⟩ (report + ⟨ms.length, 0⟩)
    exact (hiff _ _ _ _).2 ⟨{}, by simp, .ended hturn⟩
  · intro m chunk rest ms m' f hrun _ ih report
    obtain ⟨_, m₁, rfl, hs, hf, hiff⟩ := exists_ends_of_runWith hrun
    have hturn := turn_of_finish hs hf ⟨chunk :: rest⟩ (report + ⟨ms.length, 0⟩)
    have hreport : report + ⟨ms.length, 0⟩ + ⟨0, 1⟩ + f.transcript.report =
        report + (⟨ms, [chunk]⟩ ++ f.transcript).report := by
      rw [Transcript.report_append, RunReport.add_assoc, RunReport.add_assoc,
        ← RunReport.add_assoc ⟨ms.length, 0⟩]
      simp [Transcript.report]
    have hend := Run.Ends.refilled hturn (ih _)
    refine (hiff _ _ _ _).2 ⟨⟨[], [chunk]⟩ ++ f.transcript, ?_, ?_⟩
    · ext1 <;> simp
    · simpa only [Feeding.finished, hreport, List.nil_append] using hend

theorem feed_mono (h : feed fuel chunks m = some f) (hle : fuel ≤ fuel') :
    feed fuel' chunks m = some f := by
  refine feed_induction (P := fun m chunks f => feed fuel' chunks m = some f) ?_ ?_ ?_ h
  · intro m chunks ms m' hrun
    exact feed_of_completed (runWith_mono hrun hle)
  · intro m ms m' hrun
    exact feed_nil_of_blocked (runWith_mono hrun hle)
  · intro m chunk rest ms m' f hrun _ ih
    rw [feed_cons_of_blocked (runWith_mono hrun hle), ih]
    rfl

theorem exists_feed_of_executed (hs : m.step = (.executed, m₁))
    (h : feed fuel chunks m₁ = some f) : ∃ f', feed (fuel + 1) chunks m = some f' := by
  have hfirst : runWith noteExecuted (fuel + 1) [] m =
      (runWith noteExecuted fuel [] m₁).map (Prod.map ([m] ++ ·) id) := by
    rw [runWith_note_of_executed hs, ← runWith_note_append, List.append_nil, List.nil_append]
  rcases hrun : runWith noteExecuted fuel [] m₁ with _ | ⟨ms, _ | _, m'⟩
  · simp [feed_of_none hrun] at h
  · rw [hrun] at hfirst
    exact ⟨_, feed_of_completed hfirst⟩
  · rw [hrun] at hfirst
    cases chunks with
    | nil => exact ⟨_, feed_nil_of_blocked hfirst⟩
    | cons chunk rest =>
      rw [feed_cons_of_blocked hrun] at h
      obtain ⟨f', hf', -⟩ := Option.map_eq_some_iff.1 h
      rw [feed_cons_of_blocked hfirst, feed_mono hf' (Nat.le_succ fuel)]
      exact ⟨_, rfl⟩

theorem exists_feed_of_ends {r : Run Script} {t : Transcript} {fin : FinishedRun Script}
    (h : Run.Ends ⟨0⟩ r t fin) : ∃ fuel f, feed fuel r.source.chunks r.machine = some f := by
  induction h with
  | executed ht _ ih =>
    obtain ⟨fuel, f, hf⟩ := ih
    obtain ⟨hs, hsource, -⟩ := Run.turn_executed ht
    rw [hsource] at hf
    obtain ⟨f', hf'⟩ := exists_feed_of_executed hs hf
    exact ⟨_, _, hf'⟩
  | @refilled r r₁ chunk t fin ht _ ih =>
    obtain ⟨fuel, f, hf⟩ := ih
    obtain ⟨hs, hmachine, hnext, -⟩ := Run.turn_refilled ht
    simp only [Run.nextChunk_script, Prod.mk.injEq, Except.ok.injEq,
      List.head?_eq_some_iff] at hnext
    obtain ⟨⟨rest, hchunks⟩, hrest⟩ := hnext
    rw [← hrest, hchunks, hmachine] at hf
    have hrun : runWith noteExecuted (fuel + 1) [] r.machine = _ :=
      runWith_note_of_blocked hs
    have hf' : feed (fuel + 1) rest (supply { r.machine with blocked := true } chunk) = some f :=
      feed_mono hf (Nat.le_succ fuel)
    rw [hchunks]
    exact ⟨fuel + 1, _, (feed_cons_of_blocked hrun).trans (by rw [hf']; rfl)⟩
  | @ended r r₁ result ht =>
    rcases Run.ended_cases ht with
      ⟨hl, -, -⟩ | ⟨_, s, hs, hc, -, ⟨rfl, -⟩ | ⟨e, rfl, -⟩⟩ | ⟨hs, -, -⟩
    · simp [Run.atLimit_of_zero] at hl
    · simp only [Run.nextChunk_script, Prod.mk.injEq, Except.ok.injEq,
        List.head?_eq_none_iff] at hc
      rw [hc.1]
      exact ⟨1, _, feed_nil_of_blocked (runWith_note_of_blocked hs)⟩
    · simp [Run.nextChunk_script] at hc
    · have hrun : runWith noteExecuted 1 [] r.machine =
          some ([], .completed, { r.machine with ip := 0 }) := by
        rw [runWith_note_of_ne (by simp [hs]), finish_step_of_done hs]
      exact ⟨1, _, feed_of_completed hrun⟩

theorem fits_of_feed (h : feed fuel chunks m = some f) : f.Fits chunks := by
  refine feed_induction (P := fun _ chunks f => f.Fits chunks) ?_ ?_ ?_ h
  · intro m chunks ms m' hrun
    exact ⟨rfl, fun _ => ip_eq_zero_of_completed hrun, nofun⟩
  · intro m ms m' hrun
    exact ⟨rfl, nofun, fun _ => ⟨blocked_of_blocked hrun, rfl⟩⟩
  · intro m chunk rest ms m' f hrun _ ih
    exact ⟨by simp [ih.chunks_eq], ih.rewound, ih.waiting⟩

theorem performs_script_iff {t : Transcript} {fin : FinishedRun Script} :
    m.Performs ⟨0⟩ (⟨chunks⟩ : Script) t fin ↔
      ∃ fuel f, feed fuel chunks m = some f ∧ t = f.transcript ∧ fin = f.finished {} := by
  rw [Run.performs_iff]
  constructor
  · intro h
    obtain ⟨fuel, f, hf⟩ := exists_feed_of_ends h
    exact ⟨fuel, f, hf, h.unique (ends_of_feed hf {})⟩
  · rintro ⟨fuel, f, hf, rfl, rfl⟩
    exact ends_of_feed hf {}

theorem exists_runOn_script_iff {fin : FinishedRun Script} :
    (∃ fuel, m.runOn ⟨0⟩ fuel (⟨chunks⟩ : Script) = some fin) ↔
      ∃ fuel f, feed fuel chunks m = some f ∧ fin = f.finished {} := by
  rw [Run.exists_runOn_iff]
  constructor
  · rintro ⟨t, h⟩
    obtain ⟨fuel, f, hf, -, rfl⟩ := performs_script_iff.1 h
    exact ⟨fuel, f, hf, rfl⟩
  · rintro ⟨fuel, f, hf, rfl⟩
    exact ⟨f.transcript, performs_script_iff.2 ⟨fuel, f, hf, rfl, rfl⟩⟩

theorem finished_ok_iff {report : RunReport} {s : Script} :
    ⟨.ok report, m', s⟩ = f.finished {} ↔ f.outcome = .completed ∧ f.machine = m' ∧ s = ⟨f.rest⟩ ∧
      report = f.transcript.report := by
  cases ho : f.outcome with
  | completed => simp [Feeding.finished, ho, eq_comm, and_comm, and_assoc]
  | blocked => simp [Feeding.finished, ho]

theorem finished_error_iff {e : Error} {s : Script} :
    ⟨.error e, m', s⟩ = f.finished {} ↔ f.outcome = .blocked ∧ f.machine = m' ∧ s = ⟨f.rest⟩ ∧
      e = .inputExhausted m'.ip := by
  cases ho : f.outcome with
  | completed => simp [Feeding.finished, ho]
  | blocked =>
    simp only [Feeding.finished, ho, FinishedRun.mk.injEq, Except.error.injEq, true_and]
    constructor
    · rintro ⟨rfl, rfl, rfl⟩
      exact ⟨rfl, rfl, rfl⟩
    · rintro ⟨rfl, rfl, rfl⟩
      exact ⟨rfl, rfl, rfl⟩

/-- A run without a bound on a script agrees with feeding the machine by hand: it ends well where
that ends with a machine that completed, and it is out of input where that ends with one that waits,
in both cases with that machine, and it has no end where that has none. The report counts the
executed steps and the supplied chunks. To watch a run on any source changes nothing, and what is
shown are the machines that its executed steps left, in order. -/
theorem runOn_script_iff_feed {σ : Type} [InputSource σ] (m : Machine) (chunks : List String)
    (options : RunOptions) (source : σ) :
    (∀ report m' s, (∃ fuel, m.runOn ⟨0⟩ fuel (⟨chunks⟩ : Script) = some ⟨.ok report, m', s⟩) ↔
      ∃ fuel f, feed fuel chunks m = some f ∧ f.outcome = .completed ∧ f.machine = m' ∧
        s = ⟨f.rest⟩ ∧ report = f.transcript.report) ∧
    (∀ e m' s, (∃ fuel, m.runOn ⟨0⟩ fuel (⟨chunks⟩ : Script) = some ⟨.error e, m', s⟩) ↔
      ∃ fuel f, feed fuel chunks m = some f ∧ f.outcome = .blocked ∧ f.machine = m' ∧
        s = ⟨f.rest⟩ ∧ e = .inputExhausted m'.ip) ∧
    ((∀ fuel, m.runOn ⟨0⟩ fuel (⟨chunks⟩ : Script) = none) ↔
      ∀ fuel, feed fuel chunks m = none) ∧
    (∀ fuel f, feed fuel chunks m = some f → f.Fits chunks) ∧
    ∀ (α : Type) (observe : α → Machine → α) seen seen',
      (∀ fuel, (m.traceOn options observe fuel seen source).map Prod.snd =
        m.runOn options fuel source) ∧
      (∀ fin, (∃ fuel, m.traceOn options observe fuel seen source = some (seen', fin)) ↔
        ∃ t, m.Performs options source t fin ∧ seen' = t.left.foldl observe seen) ∧
      ∀ fin, (∃ fuel, m.traceOn ⟨0⟩ observe fuel seen (⟨chunks⟩ : Script) = some (seen', fin)) ↔
        ∃ fuel f, feed fuel chunks m = some f ∧ fin = f.finished {} ∧
          seen' = f.transcript.left.foldl observe seen := by
  refine ⟨fun report m' s => ?_, fun e m' s => ?_, ?_, fun fuel f hf => fits_of_feed hf,
    fun α observe seen seen' => ⟨fun fuel => ?_, fun fin => Run.exists_traceOn_iff .., fun fin => ?_⟩⟩
  · simp only [exists_runOn_script_iff, finished_ok_iff]
  · simp only [exists_runOn_script_iff, finished_error_iff]
  · simp only [Option.eq_none_iff_forall_ne_some]
    constructor
    · intro h fuel f hf
      obtain ⟨fuel', hrun⟩ := exists_runOn_script_iff.2 ⟨fuel, f, hf, rfl⟩
      exact h fuel' _ hrun
    · intro h fuel fin hrun
      obtain ⟨fuel', f, hf, -⟩ := exists_runOn_script_iff.1 ⟨fuel, hrun⟩
      exact h fuel' f hf
  · rw [Run.traceOn_eq_drive, Run.map_drive_eq_runOn]
  · rw [Run.exists_traceOn_iff]
    simp only [performs_script_iff]
    constructor
    · rintro ⟨t, ⟨fuel, f, hf, rfl, rfl⟩, rfl⟩
      exact ⟨fuel, f, hf, rfl, rfl⟩
    · rintro ⟨fuel, f, hf, rfl, rfl⟩
      exact ⟨_, ⟨fuel, f, hf, rfl, rfl⟩, rfl⟩

end Machine

end Brainfuck
