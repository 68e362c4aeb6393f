import Brainfuck.Proofs.Run.Course

/-!
# The bound of a run

A run within a bound is compared with the run of the same machine on the same source that has none.
Until the bound is reached they take the same turns. The two may differ only at the step that
reaches the bound, and there only if the machine is not at the end of its program.
-/

namespace Brainfuck

/-- A source that has handed out all it has after finitely many chunks, whatever it is shown. -/
inductive InputSource.Exhaustible {σ : Type} [InputSource σ] : σ → Prop
  | intro {s : σ} : (∀ m chunk s', InputSource.nextChunk s m = (.ok (some chunk), s') →
      Exhaustible s') → Exhaustible s

theorem Script.exhaustible (s : Script) : InputSource.Exhaustible s := by
  obtain ⟨chunks⟩ := s
  induction chunks with
  | nil => exact .intro fun m chunk s' h => by simp [InputSource.nextChunk] at h
  | cons chunk chunks ih =>
    refine .intro fun m chunk' s' h => ?_
    simp only [InputSource.nextChunk, Prod.mk.injEq] at h
    exact h.2 ▸ ih

namespace Run

variable {σ : Type} [InputSource σ] {options : RunOptions} {r r₁ r₂ : Run σ}
  {ms : List Machine} {limit : Nat}

/-- Below the bound the course is that of the run without one. -/
theorem Course.bounded (h : Course ⟨0⟩ r ms r₁) (hlt : r.report.steps + ms.length < limit) :
    Course ⟨limit⟩ r ms r₁ := by
  induction h with
  | start => exact .start
  | @executed ms r₁ r₂ hc ht ih =>
    have hms : r.report.steps + ms.length < limit := by
      rw [List.length_append] at hlt
      omega
    have hbelow : r₁.atLimit ⟨limit⟩ = false := atLimit_of_lt (hc.steps_eq ▸ hms)
    exact (ih hms).executed (by rw [turn_eq_unbounded hbelow, ht])
  | @refilled ms r₁ r₂ chunk hc ht ih =>
    have hbelow : r₁.atLimit ⟨limit⟩ = false := atLimit_of_lt (hc.steps_eq ▸ hlt)
    exact (ih hlt).refilled (by rw [turn_eq_unbounded hbelow, ht])

theorem Course.last_of_done (h : Course options r ms r₁) (hms : ms ≠ [])
    (hdone : r₁.machine.program.size ≤ r₁.machine.ip) :
    ∃ ms' r₂, Course options r ms' r₂ ∧ r₂.turn options = (.executed, r₁) ∧
      ms = ms' ++ [r₁.machine] := by
  cases h with
  | start => exact absurd rfl hms
  | @executed ms' r₂ _ hc ht => exact ⟨ms', r₂, hc, ht, rfl⟩
  | @refilled _ r₂ _ _ hc ht =>
    -- A machine that was just stepped waits only at a read, which is inside of the program.
    obtain ⟨hs, hm, -, -⟩ := turn_refilled ht
    obtain ⟨hcur, -⟩ := Machine.current?_of_step_blocked (hc.unblocked hms) hs
    have hlt := Machine.ip_lt_of_current? hcur
    rw [hm] at hdone
    exact absurd hdone (Nat.not_le.2 hlt)

theorem Course.exhaustible (h : Course options r ms r₁)
    (hsource : InputSource.Exhaustible r.source) : InputSource.Exhaustible r₁.source := by
  induction h with
  | start => exact hsource
  | executed _ ht ih => rwa [(turn_executed ht).2.1]
  | refilled _ ht ih =>
    obtain ⟨hnext⟩ := ih
    exact hnext _ _ _ (turn_refilled ht).2.2.1

/-- A source cannot hold a run up for ever: at some turn it is stepped or ends. -/
theorem exists_turn_of_exhaustible (hsource : InputSource.Exhaustible r.source) :
    ∃ r₁ r₂, Course ⟨0⟩ r [] r₁ ∧
      (r₁.turn ⟨0⟩ = (.executed, r₂) ∨ ∃ result, r₁.turn ⟨0⟩ = (.ended result, r₂)) := by
  generalize hs : r.source = s at hsource
  induction hsource generalizing r with
  | intro _ ih =>
    rcases ht : r.turn ⟨0⟩ with ⟨_ | chunk | result, r₂⟩
    · exact ⟨r, r₂, .start, .inl ht⟩
    · have hnext := (turn_refilled ht).2.2.1
      rw [hs] at hnext
      obtain ⟨r₃, r₄, hc, hturn⟩ := ih _ _ _ hnext rfl
      exact ⟨r₃, r₄, Course.trans (.refilled .start ht) hc, hturn⟩
    · exact ⟨r, r₂, .start, .inr ⟨result, ht⟩⟩

theorem exists_step_or_end (hsource : InputSource.Exhaustible r.source) (n : Nat) :
    (∃ ms r₁ r₂, Course ⟨0⟩ r ms r₁ ∧ ms.length = n ∧ r₁.turn ⟨0⟩ = (.executed, r₂)) ∨
    ∃ ms r₁ r₂ result, Course ⟨0⟩ r ms r₁ ∧ ms.length ≤ n ∧
      r₁.turn ⟨0⟩ = (.ended result, r₂) := by
  induction n with
  | zero =>
    obtain ⟨r₁, r₂, hc, ht | ⟨result, ht⟩⟩ := exists_turn_of_exhaustible hsource
    · exact .inl ⟨[], r₁, r₂, hc, rfl, ht⟩
    · exact .inr ⟨[], r₁, r₂, result, hc, Nat.le_refl 0, ht⟩
  | succ n ih =>
    rcases ih with ⟨ms, r₁, r₂, hc, hlen, ht⟩ | ⟨ms, r₁, r₂, result, hc, hlen, ht⟩
    · have hc₂ := hc.executed ht
      have hlen₂ : (ms ++ [r₂.machine]).length = n + 1 := by
        rw [List.length_append, hlen, List.length_singleton]
      obtain ⟨r₃, r₄, hc₃, hnext⟩ := exists_turn_of_exhaustible (hc₂.exhaustible hsource)
      have hc₄ := hc₂.trans hc₃
      rw [List.append_nil] at hc₄
      obtain ht₃ | ⟨result, ht₃⟩ := hnext
      · exact .inl ⟨_, r₃, r₄, hc₄, hlen₂, ht₃⟩
      · exact .inr ⟨_, r₃, r₄, result, hc₄, Nat.le_of_eq hlen₂, ht₃⟩
    · exact .inr ⟨ms, r₁, r₂, result, hc, by omega, ht⟩

end Run

/-- A run that comes to its end with these machines shown is within a bound: it takes fewer steps,
or just as many and is at the end of its program. -/
def FinishedRun.Within {σ : Type} (limit : Nat) (ms : List Machine) (fin : FinishedRun σ) : Prop :=
  ms.length < limit ∨ ms.length = limit ∧ ∃ report, fin.result = .ok report

section StepLimit

variable {σ : Type} [InputSource σ] {m : Machine} {source : σ} {limit : Nat} {ms : List Machine}
  {fin : FinishedRun σ}

open Run

theorem Machine.RunsTo.bounded (hpos : 0 < limit) (h : m.RunsTo ⟨0⟩ source ms fin)
    (hw : fin.Within limit ms) : m.RunsTo ⟨limit⟩ source ms fin := by
  obtain ⟨r₁, result, r₂, hc, ht, rfl⟩ := runsTo_iff.1 h
  have hsteps := hc.steps_eq
  rw [Nat.zero_add] at hsteps
  rcases hw with hlt | ⟨hlen, report, hok⟩
  · have hbelow : r₁.atLimit ⟨limit⟩ = false := atLimit_of_lt (hsteps ▸ hlt)
    refine runsTo_iff.2 ⟨r₁, result, r₂, hc.bounded ?_, ?_, rfl⟩
    · rwa [Nat.zero_add]
    · rw [turn_eq_unbounded hbelow, ht]
  · obtain rfl : result = .ok report := hok
    have hdone := (Machine.step_eq_of_done (turn_ended_ok ht).1).2.2
    have hms : ms ≠ [] := by
      rintro rfl
      exact Nat.ne_of_lt hpos hlen
    obtain ⟨ms', r₃, hc₃, ht₃, rfl⟩ := hc.last_of_done hms hdone
    have hlen₃ : ms'.length < limit := by
      rw [List.length_append, List.length_singleton] at hlen
      omega
    have hsteps₃ := hc₃.steps_eq
    rw [Nat.zero_add] at hsteps₃
    have hbelow : r₃.atLimit ⟨limit⟩ = false := atLimit_of_lt (hsteps₃ ▸ hlen₃)
    have hend : r₁.atLimit ⟨limit⟩ = false := by
      rw [Bool.eq_false_iff, ne_eq, atLimit_iff]
      omega
    have hc₄ : Course ⟨limit⟩ ⟨m, source, {}⟩ ms' r₃ := hc₃.bounded (by rwa [Nat.zero_add])
    have hc₁ := hc₄.executed (by rw [turn_eq_unbounded hbelow, ht₃])
    exact runsTo_iff.2 ⟨r₁, _, r₂, hc₁, by rw [turn_eq_unbounded hend, ht], rfl⟩

theorem Machine.exists_stepLimitExceeded (hpos : 0 < limit)
    (hsource : InputSource.Exhaustible source)
    (h : ¬ ∃ ms fin, m.RunsTo ⟨0⟩ source ms fin ∧ fin.Within limit ms) :
    ∃ ms r₁ r₂, Course ⟨0⟩ ⟨m, source, {}⟩ ms r₁ ∧ ms.length + 1 = limit ∧
      r₁.turn ⟨0⟩ = (.executed, r₂) ∧ r₂.machine.ip < r₂.machine.program.size ∧
      m.RunsTo ⟨limit⟩ source (ms ++ [r₂.machine])
        ⟨.error (.stepLimitExceeded limit r₂.machine.ip), r₂.machine, r₂.source⟩ := by
  obtain ⟨n, rfl⟩ : ∃ n, limit = n + 1 := ⟨limit - 1, by omega⟩
  have ends {ms r₁ r₂ result} (hc : Course ⟨0⟩ ⟨m, source, {}⟩ ms r₁)
      (ht : r₁.turn ⟨0⟩ = (.ended result, r₂))
      (hw : FinishedRun.Within (n + 1) ms ⟨result, r₂.machine, r₂.source⟩) : False :=
    h ⟨ms, _, runsTo_iff.2 ⟨r₁, result, r₂, hc, ht, rfl⟩, hw⟩
  rcases exists_step_or_end (r := ⟨m, source, {}⟩) hsource n with
    ⟨ms, r₁, r₂, hc, hlen, ht⟩ | ⟨ms, r₁, r₂, result, hc, hlen, ht⟩
  · have hc₂ := hc.executed ht
    have hlen₂ : (ms ++ [r₂.machine]).length = n + 1 := by
      rw [List.length_append, hlen, List.length_singleton]
    have hinside : r₂.machine.ip < r₂.machine.program.size := by
      refine Nat.lt_of_not_le fun hout => ?_
      have hb := (Machine.blocked_of_step_executed (turn_executed ht).1).2.1
      have hcur := Machine.current?_eq_none_iff.2 hout
      have hs := Machine.step_of_current?_eq_none hb hcur
      have hend := turn_of_step_done (atLimit_of_zero r₂) (by rw [hs])
      exact ends hc₂ hend (.inr ⟨hlen₂, _, rfl⟩)
    have hsteps := hc.steps_eq
    rw [Nat.zero_add] at hsteps
    have hbelow : r₁.atLimit ⟨n + 1⟩ = false := atLimit_of_lt (by rw [hsteps]; simp only; omega)
    have hbound : r₂.atLimit ⟨n + 1⟩ = true := by
      rw [atLimit_iff, (turn_executed ht).2.2, hsteps, hlen]
      exact ⟨hpos, Nat.le_refl _, hinside⟩
    refine ⟨ms, r₁, r₂, hc, by rw [hlen], ht, hinside, ?_⟩
    refine runsTo_iff.2 ⟨r₂, _, r₂, ?_, turn_of_atLimit hbound, rfl⟩
    exact (hc.bounded (by simp only; omega)).executed (by rw [turn_eq_unbounded hbelow, ht])
  · exact (ends hc ht (.inl (by omega))).elim

/-- A run that ends within a bound is the same with it. Every other run, be it without end, is
stopped right after the step that reaches the bound, inside of the program, with the machine and the
source as they are there. A run has one end, and its report counts the steps that an observer is
shown. -/
theorem runsTo_stepLimit (m : Machine) {source : σ} (hpos : 0 < limit)
    (hsource : InputSource.Exhaustible source) :
    (∀ ms fin, m.RunsTo ⟨0⟩ source ms fin → fin.Within limit ms →
      m.RunsTo ⟨limit⟩ source ms fin) ∧
    ((¬ ∃ ms fin, m.RunsTo ⟨0⟩ source ms fin ∧ fin.Within limit ms) →
      ∃ ms r₁ r₂, Course ⟨0⟩ ⟨m, source, {}⟩ ms r₁ ∧ ms.length + 1 = limit ∧
        r₁.turn ⟨0⟩ = (.executed, r₂) ∧ r₂.machine.ip < r₂.machine.program.size ∧
        m.RunsTo ⟨limit⟩ source (ms ++ [r₂.machine])
          ⟨.error (.stepLimitExceeded limit r₂.machine.ip), r₂.machine, r₂.source⟩) ∧
    (∀ options ms fin ms' fin', m.RunsTo options source ms fin →
      m.RunsTo options source ms' fin' → ms = ms' ∧ fin = fin') ∧
    ∀ options ms fin report, m.RunsTo options source ms fin → fin.result = .ok report →
      report.steps = ms.length := by
  refine ⟨fun ms fin h hw => h.bounded hpos hw,
    fun h => Machine.exists_stepLimitExceeded hpos hsource h, ?_, ?_⟩
  · rintro options ms fin ms' fin' ⟨fuel, h⟩ ⟨fuel', h'⟩
    exact collect_unique h h'
  · intro options ms fin report h hok
    obtain ⟨r₁, result, r₂, hc, ht, rfl⟩ := runsTo_iff.1 h
    obtain rfl : result = .ok report := hok
    rw [(turn_ended_ok ht).2, hc.steps_eq, Nat.zero_add]

/-- Two steps are within a bound of two and not within a bound of one. -/
theorem runsTo_stepLimit_two :
    let p : Program := ⟨#['+', '.']⟩
    let source : Script := {}
    (∃ ms fin, (Machine.load p).RunsTo ⟨2⟩ source ms fin ∧ ms.length = 2 ∧
      fin.result = .ok ⟨2, 0⟩) ∧
    ∃ ms m s, (Machine.load p).RunsTo ⟨1⟩ source ms
      ⟨.error (.stepLimitExceeded 1 m.ip), m, s⟩ ∧ ms.length = 1 := by
  intro p source
  have hspec (L : Nat) (hL : 0 < L) :=
    runsTo_stepLimit (Machine.load p) hL (Script.exhaustible source)
  have hrun : ∃ ms fin, (Machine.load p).RunsTo ⟨0⟩ source ms fin ∧ ms.length = 2 ∧
      fin.result = .ok ⟨2, 0⟩ := ⟨_, _, ⟨3, rfl⟩, rfl, rfl⟩
  obtain ⟨ms, fin, hrun, hlen, hok⟩ := hrun
  refine ⟨⟨ms, fin, (hspec 2 (by decide)).1 ms fin hrun (.inr ⟨hlen, _, hok⟩), hlen, hok⟩, ?_⟩
  obtain ⟨-, hbeyond, hunique, -⟩ := hspec 1 (by decide)
  obtain ⟨ms', r₁, r₂, -, hlen', -, -, hend⟩ := hbeyond (by
    rintro ⟨ms', fin', hrun', hw⟩
    obtain ⟨rfl, rfl⟩ := hunique _ _ _ _ _ hrun hrun'
    rcases hw with hlt | ⟨heq, -⟩ <;> omega)
  exact ⟨_, _, _, hend, by rw [List.length_append, List.length_singleton, hlen']⟩

end StepLimit

end Brainfuck
