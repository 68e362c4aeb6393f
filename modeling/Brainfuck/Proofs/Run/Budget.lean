import Brainfuck.Proofs.Run.Resume
import Brainfuck.Session.Recorder

/-!
# The budget of a run

A run within a bound on a script has a budget: the steps that it may still take and the chunks that
it may still be given. Each turn uses up one of the two or ends the run, so the run ends, whatever the
program does and however little the chunks hold.
-/

namespace Brainfuck

def RunEvent.countSteps (calls : Nat) : RunEvent → Machine → Nat
  | .stepping, _ => calls + 1
  | .turned _, _ => calls

/-! ### Sources that answer alike -/

def FinishedRun.mapSource {σ τ : Type} (f : σ → τ) (fin : FinishedRun σ) : FinishedRun τ :=
  ⟨fin.result, fin.machine, f fin.source⟩

namespace Run

variable {σ τ α : Type} {options : RunOptions} {limit fuel calls : Nat}

def mapSource (f : σ → τ) (r : Run σ) : Run τ := ⟨r.machine, f r.source, r.report⟩

section Sources

variable [InputSource σ] [InputSource τ] {f : σ → τ}

theorem turn_mapSource
    (hf : ∀ s m, InputSource.nextChunk (f s) m =
      ((InputSource.nextChunk s m).1, f (InputSource.nextChunk s m).2)) (r : Run σ) :
    (r.mapSource f).turn options = ((r.turn options).1, (r.turn options).2.mapSource f) := by
  cases hl : r.atLimit options with
  | true =>
    have hl' : (r.mapSource f).atLimit options = true := hl
    rw [turn_of_atLimit hl, turn_of_atLimit hl']
    rfl
  | false =>
    have hl' : (r.mapSource f).atLimit options = false := hl
    cases hs : r.machine.step.1 with
    | executed =>
      have hstep : r.machine.step = (.executed, r.machine.step.2) := Prod.ext hs rfl
      rw [turn_of_step_executed hl hstep, turn_of_step_executed (r := r.mapSource f) hl' hstep]
      rfl
    | done =>
      rw [turn_of_step_done hl hs, turn_of_step_done (r := r.mapSource f) hl' hs]
      rfl
    | blocked =>
      rcases hc : InputSource.nextChunk r.source { r.machine with blocked := true } with ⟨answer, s⟩
      have hc' := hf r.source { r.machine with blocked := true }
      rw [hc] at hc'
      rw [turn_of_step_blocked hl hs hc,
        turn_of_step_blocked (r := r.mapSource f) hl' hs hc']
      rcases answer with e | _ | chunk
      all_goals rfl

theorem drive_mapSource
    (hf : ∀ s m, InputSource.nextChunk (f s) m =
      ((InputSource.nextChunk s m).1, f (InputSource.nextChunk s m).2))
    (observe : α → RunEvent → Machine → α) (fuel : Nat) (seen : α) (r : Run σ) :
    (r.mapSource f).drive options observe fuel seen =
      (r.drive options observe fuel seen).map (Prod.map id (FinishedRun.mapSource f)) := by
  induction fuel generalizing seen r with
  | zero => rfl
  | succ fuel ih =>
    have hlimit : (r.mapSource f).atLimit options = r.atLimit options := rfl
    have hmachine : (r.mapSource f).machine = r.machine := rfl
    simp only [drive, turn_mapSource hf, hlimit, hmachine]
    rcases r.turn options with ⟨_ | chunk | result, r₁⟩
    · exact ih _ r₁
    · exact ih _ r₁
    · rfl

end Sources

/-! ### Turns -/

variable {r r₁ : Run (RecordedSource Script)} {fin : FinishedRun (RecordedSource Script)}

/-- The steps that a run may still take and the chunks that its source still has. -/
def budget (limit : Nat) (r : Run (RecordedSource Script)) : Nat :=
  limit - r.report.steps + r.source.source.chunks.length

theorem nextChunk_recorded (s : RecordedSource Script) (m : Machine) :
    InputSource.nextChunk s m = (.ok s.source.chunks.head?,
      ⟨⟨s.source.chunks.tail⟩, s.requests.push ⟨m.ip, m.blocked, m.output.length⟩⟩) := by
  obtain ⟨source, requests⟩ := s
  have h := nextChunk_script source m
  simp only [InputSource.nextChunk] at h ⊢
  rw [h]

theorem drive_countSteps_of_not_ended (h : ∀ result, (r.turn options).1 ≠ .ended result) :
    r.drive options RunEvent.countSteps (fuel + 1) calls =
      (r.turn options).2.drive options RunEvent.countSteps fuel (calls + 1) := by
  have hl : r.atLimit options = false := atLimit_of_turn h
  rcases ht : r.turn options with ⟨_ | chunk | result, r₁⟩
  · simp only [drive, ht, hl]
    rfl
  · simp only [drive, ht, hl]
    rfl
  · exact absurd (by rw [ht]) (h result)

theorem drive_countSteps_of_ended {result : Except Error RunReport}
    (h : r.turn options = (.ended result, r₁)) :
    ∃ calls' ≤ calls + 1, r.drive options RunEvent.countSteps (fuel + 1) calls =
      some (calls', ⟨result, r₁.machine, r₁.source⟩) := by
  cases hl : r.atLimit options with
  | true => exact ⟨calls, Nat.le_succ calls, by simp only [drive, h, hl]; rfl⟩
  | false => exact ⟨calls + 1, Nat.le_refl _, by simp only [drive, h, hl]; rfl⟩

theorem budget_of_executed (hpos : 0 < limit) (h : r.turn ⟨limit⟩ = (.executed, r₁)) :
    r₁.report.steps ≤ limit ∧ r.budget limit = r₁.budget limit + 1 := by
  obtain ⟨hs, hsource, hsteps⟩ := turn_executed h
  have hl : ¬ r.atLimit ⟨limit⟩ = true := by
    rw [atLimit_of_turn (by simp [h])]
    exact Bool.false_ne_true
  have hinside := (Machine.blocked_of_step_executed hs).2.2.2
  have hlt : r.report.steps < limit := by
    apply Nat.lt_of_not_le
    intro hle
    exact hl (atLimit_iff.2 ⟨hpos, hle, hinside⟩)
  rw [budget, budget, hsource, hsteps]
  omega

theorem source_of_refilled {chunk : String} (h : r.turn options = (.refilled chunk, r₁)) :
    r.source.source.chunks.length = r₁.source.source.chunks.length + 1 ∧
      r₁.source.requests = r.source.requests.push ⟨r.machine.ip, true, r.machine.output.length⟩ ∧
      r₁.report = r.report + ⟨0, 1⟩ := by
  obtain ⟨-, -, hnext, -⟩ := turn_refilled h
  rw [nextChunk_recorded] at hnext
  obtain ⟨hchunk, hsource⟩ := Prod.mk.inj hnext
  obtain ⟨rest, hrest⟩ := List.head?_eq_some_iff.1 (Except.ok.inj hchunk)
  refine ⟨?_, ?_, report_of_turn.2 _ _ h⟩
  · rw [← hsource, hrest]
    rfl
  · rw [← hsource]

theorem source_of_ended {result : Except Error RunReport}
    (h : r.turn options = (.ended result, r₁)) :
    r₁.source.requests = r.source.requests ∨ r₁.source.requests =
      r.source.requests.push ⟨r.machine.ip, true, r.machine.output.length⟩ := by
  rcases ended_cases h with ⟨-, -, rfl⟩ | ⟨_, s, -, hc, rfl, -⟩ | ⟨-, -, rfl⟩
  · exact .inl rfl
  · rw [nextChunk_recorded] at hc
    rw [← (Prod.mk.inj hc).2]
    exact .inr rfl
  · exact .inl rfl

/-! ### Runs -/

/-- How the end of a run stands to where it was: it has asked once for each chunk that was left and
once more at most, always for a machine that waits, and it has stayed within its budget. -/
structure Affords (limit : Nat) (r : Run (RecordedSource Script))
    (fin : FinishedRun (RecordedSource Script)) : Prop where
  requests_le : fin.source.requests.size ≤
    r.source.requests.size + r.source.source.chunks.length + 1
  waiting : ∀ q ∈ fin.source.requests, q ∈ r.source.requests ∨ q.blocked = true
  report_le : ∀ report, fin.result = .ok report → report.steps ≤ limit ∧
    report.refills ≤ r.report.refills + r.source.source.chunks.length

theorem Affords.of_executed (h : r.turn options = (.executed, r₁)) (hfin : r₁.Affords limit fin) :
    r.Affords limit fin := by
  have hsource := (turn_executed h).2.1
  have hreport := report_of_turn.1 _ h
  obtain ⟨hrequests, hwaiting, hle⟩ := hfin
  rw [hsource] at hrequests hwaiting
  rw [hsource, hreport] at hle
  exact ⟨hrequests, hwaiting, hle⟩

theorem Affords.of_refilled {chunk : String} (h : r.turn options = (.refilled chunk, r₁))
    (hfin : r₁.Affords limit fin) : r.Affords limit fin := by
  obtain ⟨hlength, hrequests, hreport⟩ := source_of_refilled h
  constructor
  · have hle := hfin.requests_le
    rw [hrequests, Array.size_push] at hle
    omega
  · intro q hq
    rcases hfin.waiting q hq with hq | hq
    · rw [hrequests, Array.mem_push] at hq
      exact hq.imp id fun hq => by rw [hq]
    · exact .inr hq
  · intro report hok
    obtain ⟨hsteps, hrefills⟩ := hfin.report_le report hok
    have hadd : (r.report + ⟨0, 1⟩).refills = r.report.refills + 1 := rfl
    rw [hreport, hadd] at hrefills
    exact ⟨hsteps, by omega⟩

theorem affords_of_ended {result : Except Error RunReport} (hsteps : r.report.steps ≤ limit)
    (h : r.turn options = (.ended result, r₁)) :
    r.Affords limit ⟨result, r₁.machine, r₁.source⟩ := by
  have hrequests := source_of_ended h
  constructor
  · rcases hrequests with hrequests | hrequests
    · rw [hrequests]
      omega
    · rw [hrequests, Array.size_push]
      omega
  · intro q hq
    rcases hrequests with hrequests | hrequests
    · rw [hrequests] at hq
      exact .inl hq
    · rw [hrequests, Array.mem_push] at hq
      exact hq.imp id fun hq => by rw [hq]
  · intro report hok
    obtain rfl : result = .ok report := hok
    rw [(turn_ended_ok h).2]
    exact ⟨hsteps, Nat.le_add_right _ _⟩

/-- A run that may take more turns than its budget comes to an end, and steps its machine once for
each unit of the budget and once more at most. -/
theorem exists_drive_of_budget_lt (hpos : 0 < limit) (hsteps : r.report.steps ≤ limit)
    (hfuel : r.budget limit < fuel) (calls : Nat) :
    ∃ calls' ≤ calls + r.budget limit + 1, ∃ fin,
      r.drive ⟨limit⟩ RunEvent.countSteps fuel calls = some (calls', fin) ∧
        r.Affords limit fin := by
  induction fuel generalizing r calls with
  | zero => exact absurd hfuel (Nat.not_lt_zero _)
  | succ fuel ih =>
    rcases ht : r.turn ⟨limit⟩ with ⟨_ | chunk | result, r₁⟩
    · obtain ⟨hsteps₁, hbudget⟩ := budget_of_executed hpos ht
      obtain ⟨calls', hcalls, fin, hdrive, hfin⟩ := ih hsteps₁ (by omega) (calls + 1)
      refine ⟨calls', by omega, fin, ?_, hfin.of_executed ht⟩
      rw [drive_countSteps_of_not_ended (by simp [ht]), ht, hdrive]
    · obtain ⟨hlength, -, hreport⟩ := source_of_refilled ht
      have hsteps₁ : r₁.report.steps = r.report.steps := (turn_refilled ht).2.2.2
      have hbudget : r.budget limit = r₁.budget limit + 1 := by
        rw [budget, budget, hsteps₁, hlength, Nat.add_assoc]
      obtain ⟨calls', hcalls, fin, hdrive, hfin⟩ :=
        ih (hsteps₁ ▸ hsteps) (by omega) (calls + 1)
      refine ⟨calls', by omega, fin, ?_, hfin.of_refilled ht⟩
      rw [drive_countSteps_of_not_ended (by simp [ht]), ht, hdrive]
    · obtain ⟨calls', hcalls, hdrive⟩ := drive_countSteps_of_ended ht
      exact ⟨calls', by omega, _, hdrive, affords_of_ended hsteps ht⟩

end Run

/-- A run within a bound on a script ends, whatever its machine and program are: it takes no more turns
than the bound and the chunks together and one more, and steps the machine no more often. The source is
asked once for each chunk and once more at most, and only for a machine that waits. A run that ends well
reports no more steps than the bound and no more refills than there were chunks. Neither an observer
nor a record of the requests makes a difference to any of this. -/
theorem Machine.bounded_run_ends (m : Machine) {limit : Nat} (hpos : 0 < limit)
    (chunks : List String) :
    let turns := limit + chunks.length + 1
    ∃ calls fin, Run.drive ⟨limit⟩ RunEvent.countSteps turns 0
        ⟨m, (⟨⟨chunks⟩, #[]⟩ : RecordedSource Script), {}⟩ = some (calls, fin) ∧
      calls ≤ limit + chunks.length + 1 ∧
      fin.source.requests.size ≤ chunks.length + 1 ∧
      (∀ q ∈ fin.source.requests, q.blocked = true) ∧
      (∀ report, fin.result = .ok report →
        report.steps ≤ limit ∧ report.refills ≤ chunks.length) ∧
      ∀ (α : Type) (observe : α → Machine → α) (seen : α),
        ∃ seen', m.traceOn ⟨limit⟩ observe turns seen (⟨chunks⟩ : Script) =
          some (seen', ⟨fin.result, fin.machine, fin.source.source⟩) := by
  intro turns
  let start : Run (RecordedSource Script) := ⟨m, ⟨⟨chunks⟩, #[]⟩, {}⟩
  have hbudget : start.budget limit = limit + chunks.length := rfl
  obtain ⟨calls, hcalls, fin, hdrive, hfin⟩ := Run.exists_drive_of_budget_lt (r := start) hpos
    (Nat.zero_le limit) (Nat.lt_succ_self (limit + chunks.length)) 0
  refine ⟨calls, fin, hdrive, by omega, ?_, ?_, ?_, ?_⟩
  · have hle := hfin.requests_le
    simpa [start] using hle
  · intro q hq
    rcases hfin.waiting q hq with hq | hq
    · simp [start] at hq
    · exact hq
  · intro report hok
    have hle := hfin.report_le report hok
    simpa [start] using hle
  · intro α observe seen
    have hsame : (start.drive ⟨limit⟩ (Run.onSteps observe) turns seen).map Prod.snd =
        (Run.collect ⟨limit⟩ turns [] start).map Prod.snd := Run.drive_eq_collect ..
    rw [← Run.drive_eq_collect RunEvent.countSteps turns 0, hdrive] at hsame
    obtain ⟨⟨seen', fin'⟩, hsteps, rfl⟩ := Option.map_eq_some_iff.1 hsame
    have hscript : (start.mapSource RecordedSource.source).drive ⟨limit⟩ (Run.onSteps observe)
        turns seen = _ :=
      Run.drive_mapSource (f := RecordedSource.source) (fun _ _ => rfl) ..
    rw [hsteps] at hscript
    exact ⟨seen', (Run.traceOn_eq_drive observe turns seen).trans hscript⟩

/-- A program that never ends, on a machine that waits for input and is given an empty chunk first. -/
theorem Machine.bounded_run_ends_waiting :
    let p : Program := ⟨#[',', '[', ']']⟩
    0 < 3 ∧ ∃ calls fin, Run.drive ⟨3⟩ RunEvent.countSteps 6 0
        ⟨Machine.load p, (⟨⟨["", "a"]⟩, #[]⟩ : RecordedSource Script), {}⟩ = some (calls, fin) ∧
      calls ≤ 6 ∧ fin.source.requests.size ≤ 3 ∧ ∀ q ∈ fin.source.requests, q.blocked = true := by
  intro p
  obtain ⟨calls, fin, hdrive, hcalls, hrequests, hwaiting, -⟩ :=
    Machine.bounded_run_ends (Machine.load p) (by decide : 0 < 3) ["", "a"]
  exact ⟨by decide, calls, fin, hdrive, hcalls, hrequests, hwaiting⟩

end Brainfuck
