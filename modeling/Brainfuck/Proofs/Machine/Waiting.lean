import Brainfuck.Proofs.Machine.History
import Brainfuck.Proofs.Machine.Sound
import Brainfuck.Proofs.Run.Resume

/-!
# Waiting for input

A machine is marked as waiting for input by the step that finds none, and the mark stays until input
is supplied or the machine is reset. Read off the history, it says how the last step went
(`blocked_iff_leftWaiting`). Read off the machine, it says where it is, at a read with nothing to
take, and that it stays there (`Idles`).
-/

namespace Brainfuck

namespace MachineEvent

/-- The last step found a read with nothing to take, or the machine waiting already, and neither was
input supplied nor the machine reset since. -/
def LeftWaiting (es : List MachineEvent) : Prop :=
  ∃ since k earlier, es = since ++ .stepped k :: earlier ∧ (∀ e ∈ since, ∃ p, e = .replaced p) ∧
    (k.blocked = true ∨ k.current? = some ',' ∧ k.input = [])

variable {e : MachineEvent} {es : List MachineEvent}

theorem leftWaiting_cons_iff :
    LeftWaiting (e :: es) ↔
      (∃ k, e = .stepped k ∧ (k.blocked = true ∨ k.current? = some ',' ∧ k.input = [])) ∨
        (∃ p, e = .replaced p) ∧ LeftWaiting es := by
  constructor
  · rintro ⟨since, k, earlier, hes, hsince, hk⟩
    cases since with
    | nil =>
      obtain ⟨rfl, rfl⟩ := List.cons.inj hes
      exact .inl ⟨k, rfl, hk⟩
    | cons e' since =>
      obtain ⟨rfl, rfl⟩ := List.cons.inj hes
      obtain ⟨he, hsince⟩ := List.forall_mem_cons.1 hsince
      exact .inr ⟨he, since, k, earlier, rfl, hsince, hk⟩
  · rintro (⟨k, rfl, hk⟩ | ⟨he, since, k, earlier, rfl, hsince, hk⟩)
    · exact ⟨[], k, es, rfl, by simp, hk⟩
    · exact ⟨e :: since, k, earlier, rfl, List.forall_mem_cons.2 ⟨he, hsince⟩, hk⟩

theorem not_leftWaiting_nil : ¬ LeftWaiting [] := by
  rintro ⟨since, k, earlier, hes, -⟩
  simp at hes

end MachineEvent

open MachineEvent (LeftWaiting leftWaiting_cons_iff not_leftWaiting_nil)

namespace Machine

variable {m : Machine} {p : Program} {es : List MachineEvent}

/-! ### The mark and the history -/

@[simp] theorem blocked_finish (m : Machine) : m.finish.2.blocked = m.blocked := by
  rw [finish]
  split <;> rfl

theorem blocked_step_iff : m.step.2.blocked = true ↔ m.step.1 = .blocked := by
  cases hs : m.step.1 with
  | executed =>
    have hstep : m.step = (.executed, m.step.2) := Prod.ext hs rfl
    simp [(blocked_of_step_executed hstep).2.1]
  | blocked => simp [step_eq_of_blocked hs]
  | done =>
    obtain ⟨hstep, hb, -⟩ := step_eq_of_done hs
    simp [hstep, hb]

theorem History.blocked_iff_leftWaiting (h : m.History es) :
    m.blocked = true ↔ LeftWaiting es := by
  apply h.preserves (P := fun es m => m.blocked = true ↔ LeftWaiting es)
  · intro p
    simp [Machine.load, not_leftWaiting_nil]
  · intro es m p hm
    simp [Machine.setProgram, leftWaiting_cons_iff, hm]
  · intro es m _
    simp [Machine.reset, Machine.load, leftWaiting_cons_iff]
  · intro es m _
    simp [leftWaiting_cons_iff, blocked_step_iff, step_blocked_iff]
  · intro es m text _
    simp [Machine.supply, leftWaiting_cons_iff]
  · intro es m hm
    rwa [blocked_finish]

/-! ### The mark and the machine -/

/-- A machine that waits for input is at a read and has nothing to take. -/
def WaitsAtRead (m : Machine) : Prop :=
  m.blocked = true → m.current? = some ',' ∧ m.input = []

theorem WaitsAtRead.of_step_blocked (h : m.WaitsAtRead) (hs : m.step.1 = .blocked) :
    m.current? = some ',' ∧ m.input = [] :=
  (step_blocked_iff.1 hs).elim h id

theorem WaitsAtRead.step (h : m.WaitsAtRead) : m.step.2.WaitsAtRead := by
  intro hb
  have hs := blocked_step_iff.1 hb
  rw [step_eq_of_blocked hs]
  exact h.of_step_blocked hs

theorem waitsAtRead_supply (m : Machine) (text : String) : (m.supply text).WaitsAtRead :=
  nofun

theorem WaitsAtRead.finish (h : m.WaitsAtRead) : m.finish.2.WaitsAtRead := by
  intro hb
  rw [blocked_finish] at hb
  rw [Machine.finish, if_pos hb]
  exact h hb

theorem Operated.waitsAtRead (h : m.Operated p) : m.WaitsAtRead := by
  apply h.preserves
  · exact nofun
  · intro _ _
    exact nofun
  · intro _ hm
    exact hm.step
  · intro m text _
    exact waitsAtRead_supply m text
  · intro _ hm
    exact hm.finish

end Machine

namespace Run

variable {σ : Type} [InputSource σ] {options : RunOptions} {r : Run σ} {t : Transcript}
  {fin : FinishedRun σ}

omit [InputSource σ] in
theorem atLimit_of_no_steps (options : RunOptions) (h : r.report.steps = 0) :
    r.atLimit options = false := by
  rw [Bool.eq_false_iff, ne_eq, atLimit_iff]
  omega

/-- A run that starts at a read with nothing to take executes nothing if it is given nothing but
empty chunks. -/
theorem Ends.of_unfed (h : Ends options r t fin) (hsteps : r.report.steps = 0)
    (hc : r.machine.current? = some ',') (hi : r.machine.input = [])
    (hchunks : ∀ chunk ∈ t.chunks, chunk = "") :
    t.executed = [] ∧ fin.machine = { r.machine with blocked := true } := by
  have hblocked {r : Run σ} (hc : r.machine.current? = some ',') (hi : r.machine.input = []) :
      r.machine.step.1 = .blocked := Machine.step_blocked_iff.2 (.inr ⟨hc, hi⟩)
  induction h with
  | executed ht _ _ =>
    have hs := hblocked hc hi
    rw [(turn_executed ht).1] at hs
    cases hs
  | @refilled r r₁ chunk t fin ht _ ih =>
    rw [Transcript.chunks_append, List.singleton_append, List.forall_mem_cons] at hchunks
    obtain ⟨rfl, hchunks⟩ := hchunks
    obtain ⟨-, hm, -, hr⟩ := turn_refilled ht
    have hfed : r₁.machine = { r.machine with blocked := false } := by
      rw [hm]
      simp [Machine.supply]
    rw [hfed] at ih
    obtain ⟨ht, hfin⟩ := ih (hr.trans hsteps) hc hi hchunks
    refine ⟨by simpa using ht, ?_⟩
    rw [hfin]
  | @ended r r₁ result ht =>
    refine ⟨rfl, ?_⟩
    have hs := hblocked hc hi
    rcases hnext : InputSource.nextChunk r.source { r.machine with blocked := true } with
      ⟨answer, s⟩
    have hturn := turn_of_step_blocked (atLimit_of_no_steps options hsteps) hs hnext
    rw [ht] at hturn
    rcases answer with e | _ | chunk
    · rw [(Prod.mk.inj hturn).2]
    · rw [(Prod.mk.inj hturn).2]
    · simp at hturn

theorem waits_of_inputExhausted {r₁ : Run σ} {ip : Nat} (h : r.machine.WaitsAtRead)
    (ht : r.turn options = (.ended (.error (.inputExhausted ip)), r₁)) :
    (ip = r₁.machine.ip ∧ r₁.machine.current? = some ',') ∨
      ∃ s, InputSource.nextChunk s r₁.machine = (.error (.inputExhausted ip), r₁.source) := by
  rcases ended_cases ht with
    ⟨-, he, -⟩ | ⟨_, s, hs, hc, rfl, ⟨-, he⟩ | ⟨e, rfl, he⟩⟩ | ⟨-, he, -⟩
  · cases he
  · obtain rfl := Error.inputExhausted.inj (Except.error.inj he)
    exact .inl ⟨rfl, (h.of_step_blocked hs).1⟩
  · obtain rfl := Except.error.inj he
    exact .inr ⟨_, hc⟩
  · cases he

end Run

namespace Machine

variable {m : Machine} {p : Program} {es : List MachineEvent}

/-- A machine is at a read and stays there: it has nothing to take, and no step and no run changes
anything about it, be it that the source of the run has nothing, that it fails, or that it hands out
nothing but empty chunks. -/
structure Idles (m : Machine) : Prop where
  current : m.current? = some ','
  input : m.input = []
  isDone : m.isDone = false
  step : m.step = (.blocked, m)
  run : ∀ fuel, run (fuel + 1) m = some (.blocked, m)
  exhausted : ∀ {σ : Type} [InputSource σ] options fuel (source s : σ),
    InputSource.nextChunk source m = (.ok none, s) →
      m.runOn options (fuel + 1) source = some ⟨.error (.inputExhausted m.ip), m, s⟩
  failed : ∀ {σ : Type} [InputSource σ] options fuel (source s : σ) e,
    InputSource.nextChunk source m = (.error e, s) →
      m.runOn options (fuel + 1) source = some ⟨.error e, m, s⟩
  unfed : ∀ {σ : Type} [InputSource σ] options (source : σ) t fin,
    m.Performs options source t fin → (∀ chunk ∈ t.chunks, chunk = "") →
      t.executed = [] ∧ fin.machine = m

theorem runOn_of_turn_ended {σ : Type} [InputSource σ] {options : RunOptions} {source : σ}
    {result : Except Error RunReport} {r : Run σ} (fuel : Nat)
    (h : (⟨m, source, {}⟩ : Run σ).turn options = (.ended result, r)) :
    m.runOn options (fuel + 1) source = some ⟨result, r.machine, r.source⟩ := by
  simp [runOn, Run.drive, h]

theorem WaitsAtRead.idles (h : m.WaitsAtRead) (hb : m.blocked = true) : m.Idles := by
  obtain ⟨hc, hi⟩ := h hb
  have hstep := step_of_blocked hb
  have hs : m.step.1 = .blocked := by rw [hstep]
  have hmark : { m with blocked := true } = m := by rw [← hb]
  have hturn {σ : Type} [InputSource σ] (options : RunOptions) (source s : σ)
      (answer : Except Error (Option String))
      (hnext : InputSource.nextChunk source { m with blocked := true } = (answer, s)) :=
    Run.turn_of_step_blocked (r := ⟨m, source, {}⟩) (Run.atLimit_of_no_steps options rfl) hs hnext
  simp only [hmark] at hturn
  constructor
  · exact hc
  · exact hi
  · simpa [Machine.isDone] using ip_lt_of_current? hc
  · exact hstep
  · intro fuel
    rw [run_succ, hstep]
    simp [Machine.finish, hb]
  · intro σ _ options fuel source s hnext
    exact runOn_of_turn_ended fuel (hturn options source s (.ok none) hnext)
  · intro σ _ options fuel source s e hnext
    exact runOn_of_turn_ended fuel (hturn options source s (.error e) hnext)
  · intro σ _ options source t fin hp hchunks
    have hend := (Run.performs_iff.1 hp).of_unfed rfl hc hi hchunks
    rwa [hmark] at hend

theorem Operated.ends_at_read {σ : Type} [InputSource σ] {options : RunOptions} {fuel ip : Nat}
    {source : σ} {fin : FinishedRun σ} (h : m.Operated p)
    (hrun : m.runOn options fuel source = some fin)
    (hresult : fin.result = .error (.inputExhausted ip)) :
    (ip = fin.machine.ip ∧ p.chars[ip]? = some ',') ∨
      ∃ s, InputSource.nextChunk s fin.machine = (.error (.inputExhausted ip), fin.source) := by
  have hp : fin.machine.program = p := (Operated.runOn h hrun).anchored.1
  obtain ⟨ms, hruns⟩ := Run.exists_runsTo hrun
  obtain ⟨r₁, result, r₂, hcourse, ht, rfl⟩ := Run.runsTo_iff.1 hruns
  obtain rfl : result = _ := hresult
  have hwaits : r₁.machine.WaitsAtRead :=
    hcourse.preserves (fun _ => WaitsAtRead.step) (fun m text _ => waitsAtRead_supply m text)
      h.waitsAtRead
  rcases Run.waits_of_inputExhausted hwaits ht with ⟨rfl, hc⟩ | hs
  · exact .inl ⟨rfl, hp ▸ hc⟩
  · exact .inr hs

/-- On a source that never reports the end of a run, a run ends for want of input at a read. -/
theorem Operated.at_read_of_inputExhausted {σ : Type} [InputSource σ] {options : RunOptions}
    {fuel ip : Nat} {source : σ} {fin : FinishedRun σ} (hσ : InputSource.FailsBelow σ)
    (h : m.Operated p) (hrun : m.runOn options fuel source = some fin)
    (hresult : fin.result = .error (.inputExhausted ip)) :
    ip = fin.machine.ip ∧ p.chars[ip]? = some ',' := by
  rcases h.ends_at_read hrun hresult with hread | ⟨s, hnext⟩
  · exact hread
  · cases hσ _ _ _ _ hnext

/-- A machine whose program is never replaced waits for input exactly if its last step found a read
with nothing to take, or found it waiting, and neither was input supplied nor the machine reset
since. While it waits it stays at a read, and nothing changes it but new input and a reset. So a run
that ends for want of input ends at a read, unless the source itself fails with that error. -/
theorem waits_of_operated (h : m.Operated p) :
    ((∃ es, m.History es) ∧ ∀ es, m.History es → (m.blocked = true ↔ LeftWaiting es)) ∧
    (m.blocked = true → m.Idles) ∧
    ∀ (σ : Type) [InputSource σ] options fuel (source : σ) fin ip,
      m.runOn options fuel source = some fin → fin.result = .error (.inputExhausted ip) →
        (ip = fin.machine.ip ∧ p.chars[ip]? = some ',') ∨
          ∃ s, InputSource.nextChunk s fin.machine = (.error (.inputExhausted ip), fin.source) := by
  refine ⟨⟨reachable_iff_exists_history.1 h.reachable, fun _ hes => hes.blocked_iff_leftWaiting⟩,
    h.waitsAtRead.idles, ?_⟩
  intro σ _ options fuel source fin ip hrun hresult
  exact h.ends_at_read hrun hresult

/-- A read finds nothing, and a run on a source that has nothing says where. -/
theorem waits_of_operated_exhausted :
    let p : Program := ⟨#['+', ',']⟩
    let m := (load p).step.2.step.2
    (m.blocked = true ∧ m.Idles ∧ ∀ es, m.History es → LeftWaiting es) ∧
      m.runOn {} 1 (⟨[]⟩ : Script) = some ⟨.error (.inputExhausted 1), m, ⟨[]⟩⟩ ∧
      p.chars[1]? = some ',' := by
  intro p m
  have hm : m.Operated p := .step (.step .load)
  have hb : m.blocked = true := by decide
  obtain ⟨⟨-, hiff⟩, hidles, hends⟩ := waits_of_operated hm
  have hrun := (hidles hb).exhausted {} 0 (⟨[]⟩ : Script) ⟨[]⟩ rfl
  refine ⟨⟨hb, hidles hb, fun es hes => (hiff es hes).1 hb⟩, hrun, ?_⟩
  rcases hends Script {} 1 _ _ 1 hrun rfl with ⟨-, hc⟩ | ⟨⟨_ | _⟩, hs⟩
  · exact hc
  · cases hs
  · cases hs

end Machine

end Brainfuck
