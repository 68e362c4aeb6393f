import Brainfuck.Proofs.Machine.Footing
import Brainfuck.Proofs.Machine.Printed
import Brainfuck.Proofs.Program.Scan

/-!
# Sound machines

Whatever is done with a machine, it works on a cell that its tape has, and nothing that it does next
needs what is not there. Replacing the program may leave the instruction pointer past its end and
loops that start anywhere, which does no harm; a machine that keeps its program stays within it.
-/

namespace Brainfuck.Machine

/-- All that has been done with a machine that keeps the program that was loaded into it. -/
inductive Operated (p : Program) : Machine → Prop
  | load : Operated p (load p)
  | reset {m} : Operated p m → Operated p m.reset
  | step {m} : Operated p m → Operated p m.step.2
  | supply {m} (text : String) : Operated p m → Operated p (m.supply text)
  | run {m fuel o m'} : Operated p m → Machine.run fuel m = some (o, m') → Operated p m'
  | runOn {σ : Type} [InputSource σ] {m options fuel} {source : σ} {fin} : Operated p m →
      Machine.runOn options fuel m source = some fin → Operated p fin.machine

variable {m : Machine} {p : Program}

theorem Operated.reachable (h : m.Operated p) : m.Reachable := by
  induction h with
  | load => exact .load p
  | reset _ ih => exact .reset ih
  | step _ ih => exact .step ih
  | supply text _ ih => exact .supply text ih
  | run _ hr ih => exact .run ih hr
  | runOn _ hr ih => exact .runOn ih hr

theorem Operated.preserves {P : Machine → Prop} (hload : P (Machine.load p))
    (hreset : ∀ m, P m → P m.reset) (hstep : ∀ m, P m → P m.step.2)
    (hsupply : ∀ m text, P m → P (m.supply text)) (hfinish : ∀ m, P m → P m.finish.2)
    (h : m.Operated p) : P m := by
  induction h with
  | load => exact hload
  | reset _ ih => exact hreset _ ih
  | step _ ih => exact hstep _ ih
  | supply text _ ih => exact hsupply _ text ih
  | run _ hr ih => exact preserves_run hstep (fun m hm _ => hfinish _ (hstep m hm)) hr ih
  | runOn _ hr ih => exact preserves_runOn hstep hsupply hfinish hr ih

theorem Operated.anchored (h : m.Operated p) : m.program = p ∧ m.Anchored := by
  apply h.preserves (P := fun m => m.program = p ∧ m.Anchored)
  · exact ⟨rfl, anchored_load p⟩
  · intro m hm
    exact ⟨hm.1, anchored_load _⟩
  · intro m hm
    exact ⟨by rw [program_step, hm.1], hm.2.step⟩
  · intro m text hm
    exact ⟨hm.1, hm.2.supply text⟩
  · intro m hm
    exact ⟨by rw [program_finish, hm.1], hm.2.finish⟩

theorem Reachable.linked (h : m.Reachable) : m.tape.Linked ∧ m.active ∈ m.tape := by
  apply h.preserves (P := fun m => m.tape.Linked ∧ m.active ∈ m.tape)
  · intro p
    exact ⟨Tape.linked_fresh, Tape.linked_fresh.origin_mem⟩
  · intro m p hm
    exact hm
  · intro m hm
    exact linked_step hm.1 hm.2
  · intro m text hm
    exact hm
  · intro m hm
    rw [finish]
    split <;> exact hm

/-- Nothing is missing for what a machine does next. The active cell, the origin and all that the
links lead to are cells of the tape, the walk over the tape stays on it and meets the active cell
once, at its position. A skip counts no depth below zero, and a machine at the end of its program
is not taken to be waiting. -/
structure Sound (m : Machine) : Prop where
  active_mem : m.active ∈ m.tape
  origin_mem : Tape.origin ∈ m.tape
  right_mem : ∀ c d, m.tape.right? c = some d → d ∈ m.tape
  left_mem : ∀ c d, m.tape.left? c = some d → d ∈ m.tape
  yields : m.tape.Yields (some m.tape.leftmost) m.tape.cells
  count_active : m.tape.cells.count m.active = 1
  active_at : m.tape.cells[m.activeIndex]? = some m.active
  skips : m.current? = some '[' → m.program.skipLoop? m.ip = some (m.program.skipLoop m.ip)
  completes : m.step.1 = .done → m.step.2.finish.1 = .completed

theorem Reachable.sound (h : m.Reachable) : m.Sound := by
  obtain ⟨hl, ha⟩ := h.linked
  constructor
  · exact ha
  · exact hl.origin_mem
  · intro c d hcd
    exact Tape.mem_of_left? (hl.right?_iff_left?.1 hcd)
  · intro c d hcd
    exact Tape.mem_of_right? (hl.right?_iff_left?.2 hcd)
  · exact hl.yields
  · exact List.count_eq_one_of_mem hl.nodup (hl.mem_cells.2 ha)
  · exact hl.getElem?_cells_eq_some_iff.2 ⟨ha, rfl⟩
  · exact Program.skipLoop?_of_open
  · intro hs
    rw [finish_step_of_done hs]

theorem Reachable.course {σ : Type} [InputSource σ] {options : RunOptions} {source : σ}
    {ms : List Machine} {r : Run σ} (h : m.Reachable)
    (hc : Run.Course options ⟨m, source, {}⟩ ms r) : r.machine.Reachable :=
  hc.preserves (fun _ => .step) (fun _ text => .supply text) h

/-- Every machine that can be reached is sound, and so it is at each turn of a bounded run on any
source, where the turn that ends the run well finds the program completed. If the program was never
replaced, the instruction pointer is within the program or at its end, and each loop that is kept
starts at an opening bracket. -/
theorem sound_of_reachable {m : Machine} (h : m.Reachable) :
    m.Sound ∧
    (∀ (σ : Type) [InputSource σ] options (source : σ) ms r,
      Run.Course options ⟨m, source, {}⟩ ms r → r.machine.Sound ∧
        ∀ report r', r.turn options = (.ended (.ok report), r') →
          r.machine.step.2.finish = (.completed, r'.machine)) ∧
    ∀ p, m.Operated p → m.program = p ∧ m.ip ≤ p.size ∧
      ∀ s ∈ m.loops, p.chars[s]? = some '[' := by
  refine ⟨h.sound, ?_, ?_⟩
  · intro σ _ options source ms r hc
    have hsound := (h.course hc).sound
    refine ⟨hsound, ?_⟩
    intro report r' ht
    obtain ⟨hs, -⟩ := Run.turn_ended_ok ht
    have hl : r.atLimit options = false := by
      rw [Bool.eq_false_iff]
      intro hl
      simp [Run.turn_of_atLimit hl] at ht
    have hend := Run.turn_of_step_done hl hs
    obtain ⟨hstep, -, -⟩ := step_eq_of_done hs
    apply Prod.ext
    · exact hsound.completes hs
    · rw [← (Prod.mk.inj (hend.symm.trans ht)).2, hstep]
  · intro p hp
    obtain ⟨rfl, hm⟩ := hp.anchored
    exact ⟨rfl, hm.ip_le, hm.loops_open⟩

/-- A loop is entered, and then the program is replaced by one that lacks it and is over. -/
theorem sound_of_reachable_stale :
    let m := (load ⟨#['+', '[', '>']⟩).step.2.step.2.step.2
    let k := m.setProgram ⟨#[']']⟩
    (m.ip ≤ 3 ∧ ∀ s ∈ m.loops, (#['+', '[', '>'] : Array Char)[s]? = some '[') ∧
      (k.ip = 3 ∧ k.loops = [1] ∧ k.Sound) ∧ k.step.2.finish = (.completed, { k with ip := 0 }) := by
  intro m k
  have hm : m.Operated ⟨#['+', '[', '>']⟩ := .step (.step (.step .load))
  have hk : k.Reachable := .setProgram _ hm.reachable
  obtain ⟨hsound, hruns, -⟩ := sound_of_reachable hk
  have hdone : (⟨k, ({} : Script), {}⟩ : Run Script).turn {} =
      (.ended (.ok {}), ⟨{ k with ip := 0 }, {}, {}⟩) := rfl
  refine ⟨?_, ⟨rfl, rfl, hsound⟩, ?_⟩
  · exact ((sound_of_reachable hm.reachable).2.2 _ hm).2
  · exact (hruns Script {} {} [] _ .start).2 _ _ hdone

end Brainfuck.Machine
