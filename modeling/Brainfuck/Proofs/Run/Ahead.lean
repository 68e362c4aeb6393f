import Brainfuck.Proofs.Input.LineText
import Brainfuck.Proofs.Machine.Schedule
import Brainfuck.Proofs.Run.Resume

/-!
# Input ahead of requests

A run that gets its input chunk by chunk, each when the machine waits for it, is compared with a run
that has all of it from the start and nothing to get later. They execute the same steps on machines
that differ only in the input they have not read, and come to the same end.
-/

namespace Brainfuck

variable {σ τ : Type} [InputSource σ] [InputSource τ] {options : RunOptions}

/-- A machine apart from the input that it has not read. -/
def Machine.unread (m : Machine) : Machine := { m with input := [] }

/-- Transcripts of the same steps, apart from input that was not read. -/
structure Transcript.Alike (t t' : Transcript) : Prop where
  executed : t'.executed.map Machine.unread = t.executed.map Machine.unread
  left : t'.left.map Machine.unread = t.left.map Machine.unread

theorem Transcript.Alike.of_executed_eq {t₁ t t' : Transcript} (h : t.Alike t')
    (heq : t₁.executed = t.executed) : t₁.Alike t' := by
  have hleft : t₁.left = t.left := by simp only [Transcript.left, heq]
  exact ⟨heq ▸ h.executed, hleft ▸ h.left⟩

/-- Ends of the same kind and with the same error, apart from input that was not read. -/
structure FinishedRun.Alike (fin : FinishedRun σ) (fin' : FinishedRun τ) : Prop where
  result : fin'.result.map (fun _ => ()) = fin.result.map fun _ => ()
  machine : fin'.machine.unread = fin.machine.unread

namespace Run

/-- A run that will be handed these chunks, and one whose machine has them already. -/
structure Ahead (r : Run σ) (chunks : List String) (r' : Run τ) : Prop where
  machine : r'.machine = r.machine.withInput (String.join chunks).toList
  unblocked : r.machine.blocked = false
  hands : InputSource.Hands r.source chunks
  hands' : InputSource.Hands r'.source []
  steps : r'.report.steps = r.report.steps

/-- Two runs end with this turn, and alike. -/
def EndAlike (options : RunOptions) (r : Run σ) (r' : Run τ) : Prop :=
  ∃ result result' r₁ r₁', r.turn options = (.ended result, r₁) ∧
    r'.turn options = (.ended result', r₁') ∧
    FinishedRun.Alike ⟨result, r₁.machine, r₁.source⟩ ⟨result', r₁'.machine, r₁'.source⟩

variable {r : Run σ} {r' : Run τ} {chunks : List String} {t t' : Transcript}
  {fin : FinishedRun σ} {fin' : FinishedRun τ}

theorem Ahead.atLimit_eq (h : r.Ahead chunks r') : r'.atLimit options = r.atLimit options := by
  simp [atLimit, h.machine, h.steps, Machine.isDone, Machine.withInput]

theorem Ahead.alike_of_done (h : r.Ahead chunks r') (hl : r.atLimit options = false)
    (hs : r.machine.step.1 = .done) : EndAlike options r r' := by
  have hs' : r'.machine.step.1 = .done := by
    rw [h.machine, Machine.step_withInput_of_ne (by rw [hs]; exact Step.noConfusion), hs]
  refine ⟨_, _, _, _, turn_of_step_done hl hs, turn_of_step_done (h.atLimit_eq.trans hl) hs', rfl, ?_⟩
  simp [h.machine, Machine.finish, Machine.withInput, Machine.unread, h.unblocked]

theorem Ahead.executed {m : Machine} (h : r.Ahead chunks r') (hl : r.atLimit options = false)
    (hs : r.machine.step = (.executed, m)) :
    ∃ r₁ r₁', r.turn options = (.executed, r₁) ∧ r'.turn options = (.executed, r₁') ∧
      r₁.Ahead chunks r₁' ∧ r'.machine.unread = r.machine.unread ∧
      r₁'.machine.unread = r₁.machine.unread := by
  have hs' := Machine.step_withInput hs (String.join chunks).toList
  rw [← h.machine] at hs'
  have hturn := turn_of_step_executed hl hs
  have hturn' := turn_of_step_executed (h.atLimit_eq.trans hl) hs'
  refine ⟨_, _, hturn, hturn', ⟨rfl, ?_, h.hands, h.hands', ?_⟩, ?_, rfl⟩
  · exact (Machine.blocked_of_step_executed hs).2.1
  · rw [h.steps]
  · rw [h.machine]
    rfl

theorem Ahead.refilled {chunk : String} {rest : List String} (h : r.Ahead (chunk :: rest) r')
    (hl : r.atLimit options = false) (hs : r.machine.step.1 = .blocked) :
    ∃ r₁, r.turn options = (.refilled chunk, r₁) ∧ r₁.Ahead rest r' := by
  obtain ⟨-, hin⟩ := Machine.current?_of_step_blocked h.unblocked hs
  obtain ⟨hnext, hrest⟩ := h.hands { r.machine with blocked := true }
  have hturn := turn_of_step_blocked hl hs (Prod.ext hnext rfl)
  refine ⟨_, hturn, ?_, rfl, hrest, h.hands', h.steps⟩
  simp [h.machine, Machine.withInput, Machine.supply, hin, h.unblocked]

theorem Ahead.alike_of_blocked (h : r.Ahead [] r') (hl : r.atLimit options = false)
    (hs : r.machine.step.1 = .blocked) : EndAlike options r r' := by
  have hsame : r'.machine = r.machine := by simp [h.machine, Machine.withInput]
  have hs' : r'.machine.step.1 = .blocked := by rw [hsame, hs]
  have hturn := turn_of_step_blocked hl hs (Prod.ext (h.hands _) rfl)
  have hturn' := turn_of_step_blocked (h.atLimit_eq.trans hl) hs' (Prod.ext (h.hands' _) rfl)
  refine ⟨_, _, _, _, hturn, hturn', ?_, ?_⟩
  · rw [hsame]
  · simp only [hsame]

/-- A step that executes is one of both runs. A request for input is one of the first run only, and
if it is in vain both runs end. -/
theorem Ahead.turn (h : r.Ahead chunks r') (options : RunOptions) :
    (∃ r₁ r₁', r.turn options = (.executed, r₁) ∧ r'.turn options = (.executed, r₁') ∧
      r₁.Ahead chunks r₁' ∧ r'.machine.unread = r.machine.unread ∧
      r₁'.machine.unread = r₁.machine.unread) ∨
    (∃ chunk rest r₁, chunks = chunk :: rest ∧ r.turn options = (.refilled chunk, r₁) ∧
      r₁.Ahead rest r') ∨
    EndAlike options r r' := by
  cases hl : r.atLimit options with
  | true =>
    right; right
    refine ⟨_, _, r, r', turn_of_atLimit hl, turn_of_atLimit (h.atLimit_eq.trans hl), ?_, ?_⟩
    · rw [h.machine]
      rfl
    · simp only [h.machine]
      rfl
  | false =>
    cases hs : r.machine.step.1 with
    | executed => exact .inl (h.executed hl (Prod.ext hs rfl))
    | done => exact .inr (.inr (h.alike_of_done hl hs))
    | blocked =>
      cases chunks with
      | nil => exact .inr (.inr (h.alike_of_blocked hl hs))
      | cons chunk rest =>
        obtain ⟨r₁, hturn, h₁⟩ := h.refilled hl hs
        exact .inr (.inl ⟨chunk, rest, r₁, rfl, hturn, h₁⟩)

theorem alike_executed {r₁ : Run σ} {r₁' : Run τ} (h : t.Alike t')
    (ht : r.turn options = (.executed, r₁)) (ht' : r'.turn options = (.executed, r₁'))
    (hm : r'.machine.unread = r.machine.unread) (hm₁ : r₁'.machine.unread = r₁.machine.unread) :
    (⟨[r.machine], []⟩ ++ t : Transcript).Alike (⟨[r'.machine], []⟩ ++ t') := by
  constructor
  · simp [hm, h.executed]
  · rw [Transcript.left_append, Transcript.left_append, List.map_append, List.map_append, h.left]
    simp [Transcript.left, (turn_executed ht).1, (turn_executed ht').1, hm₁]

theorem Ends.ahead (he : Ends options r t fin) (h : r.Ahead chunks r') :
    ∃ t' fin', Ends options r' t' fin' ∧ t.Alike t' ∧ fin.Alike fin' := by
  induction he generalizing chunks r' with
  | executed ht _ ih =>
    rcases h.turn options with
      ⟨r₁, r₁', hturn, hturn', h₁, hm, hm₁⟩ | ⟨_, _, _, -, hturn, -⟩ | ⟨_, _, _, _, hturn, -, -⟩
    · cases ht.symm.trans hturn
      obtain ⟨t', fin', he', halike, hfin⟩ := ih h₁
      exact ⟨_, fin', .executed hturn' he', alike_executed halike hturn hturn' hm hm₁, hfin⟩
    · cases ht.symm.trans hturn
    · cases ht.symm.trans hturn
  | refilled ht _ ih =>
    rcases h.turn options with
      ⟨_, _, hturn, -, -, -, -⟩ | ⟨_, rest, r₁, -, hturn, h₁⟩ | ⟨_, _, _, _, hturn, -, -⟩
    · cases ht.symm.trans hturn
    · cases ht.symm.trans hturn
      obtain ⟨t', fin', he', halike, hfin⟩ := ih h₁
      exact ⟨t', fin', he', halike.of_executed_eq rfl, hfin⟩
    · cases ht.symm.trans hturn
  | ended ht =>
    rcases h.turn options with
      ⟨_, _, hturn, -, -, -, -⟩ | ⟨_, _, _, -, hturn, -⟩ | ⟨_, result', _, r₁', hturn, hturn', hfin⟩
    · cases ht.symm.trans hturn
    · cases ht.symm.trans hturn
    · cases ht.symm.trans hturn
      exact ⟨{}, _, .ended hturn', ⟨rfl, rfl⟩, hfin⟩

/-- The requests before the next step or before the end leave the second run as it is. -/
theorem Ahead.settled (h : r.Ahead chunks r') (options : RunOptions) :
    ∃ r₁ rest, r₁.Ahead rest r' ∧ (∀ chunk r₂, r₁.turn options ≠ (.refilled chunk, r₂)) ∧
      ∀ t fin, Ends options r₁ t fin → ∃ t₁, Ends options r t₁ fin ∧ t₁.executed = t.executed := by
  induction chunks generalizing r with
  | nil =>
    refine ⟨r, [], h, ?_, fun t fin he => ⟨t, he, rfl⟩⟩
    intro chunk r₂ ht
    have hnext := (turn_refilled ht).2.2.1
    have hnone := h.hands { r.machine with blocked := true }
    simp [hnext] at hnone
  | cons chunk rest ih =>
    rcases h.turn options with
      ⟨_, _, ht, -, -, -, -⟩ | ⟨_, _, r₁, hchunks, ht, h₁⟩ | ⟨_, _, _, _, ht, -, -⟩
    · refine ⟨r, chunk :: rest, h, ?_, fun t fin he => ⟨t, he, rfl⟩⟩
      simp [ht]
    · cases hchunks
      obtain ⟨r₂, rest', h₂, hne, hends⟩ := ih h₁
      refine ⟨r₂, rest', h₂, hne, fun t fin he => ?_⟩
      obtain ⟨t₁, he₁, hexecuted⟩ := hends t fin he
      exact ⟨_, .refilled ht he₁, hexecuted⟩
    · refine ⟨r, chunk :: rest, h, ?_, fun t fin he => ⟨t, he, rfl⟩⟩
      simp [ht]

theorem Ends.behind (he : Ends options r' t' fin') (h : r.Ahead chunks r') :
    ∃ t fin, Ends options r t fin ∧ t.Alike t' ∧ fin.Alike fin' := by
  induction he generalizing chunks r with
  | @executed r' _ t' fin' ht' _ ih =>
    obtain ⟨r₀, rest, h₀, hne, hends⟩ := h.settled options
    rcases h₀.turn options with
      ⟨r₁, r₁', hturn, hturn', h₁, hm, hm₁⟩ | ⟨_, _, _, -, hturn, -⟩ | ⟨_, _, _, _, -, hturn', -⟩
    · cases ht'.symm.trans hturn'
      obtain ⟨t, fin, he, halike, hfin⟩ := ih h₁
      obtain ⟨t₁, he₁, hexecuted⟩ := hends _ _ (.executed hturn he)
      have hcons := alike_executed halike hturn hturn' hm hm₁
      exact ⟨t₁, fin, he₁, hcons.of_executed_eq hexecuted, hfin⟩
    · exact absurd hturn (hne _ _)
    · cases ht'.symm.trans hturn'
  | @refilled r' _ _ _ _ ht' _ _ =>
    have hnext := (turn_refilled ht').2.2.1
    have hnone := h.hands' { r'.machine with blocked := true }
    simp [hnext] at hnone
  | ended ht' =>
    obtain ⟨r₀, rest, h₀, hne, hends⟩ := h.settled options
    rcases h₀.turn options with
      ⟨_, _, -, hturn', -, -, -⟩ | ⟨_, _, _, -, hturn, -⟩ | ⟨_, _, _, _, hturn, hturn', hfin⟩
    · cases ht'.symm.trans hturn'
    · exact absurd hturn (hne _ _)
    · cases ht'.symm.trans hturn'
      obtain ⟨t₁, he₁, hexecuted⟩ := hends _ _ (.ended hturn)
      have hnone : Transcript.Alike {} {} := ⟨rfl, rfl⟩
      exact ⟨t₁, _, he₁, hnone.of_executed_eq hexecuted, hfin⟩

end Run

end Brainfuck
