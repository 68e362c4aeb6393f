import Brainfuck.Proofs.Machine.Loops
import Brainfuck.Proofs.Run.Course
import Brainfuck.Text.Position

/-!
# What a machine has printed

Until it starts over, a machine only adds to what it has printed. All that it prints are bytes, one
character each, so their low bytes are all there is to them.
-/

namespace Brainfuck

def Text.IsBytes (s : String) : Prop := ∀ c ∈ s.toList, ∃ b, c = Char.ofUInt8 b

theorem Text.isBytes_empty : Text.IsBytes "" := by
  simp [Text.IsBytes]

theorem Text.isBytes_push {s : String} (h : Text.IsBytes s) (b : UInt8) :
    Text.IsBytes (s.push (Char.ofUInt8 b)) := by
  intro c hc
  rw [String.toList_push, List.mem_append, List.mem_singleton] at hc
  exact hc.elim (h c) fun hb => ⟨b, hb⟩

theorem Text.map_lowBytes {s : String} (h : Text.IsBytes s) :
    (Text.lowBytes s).map Char.ofUInt8 = s.toList := by
  rw [Text.lowBytes, List.map_map]
  refine (List.map_congr_left fun c hc => ?_).trans (List.map_id _)
  obtain ⟨b, rfl⟩ := h c hc
  have hb : (Char.ofUInt8 b).val.toUInt8 = b := UInt8.toUInt8_toUInt32 b
  exact congrArg Char.ofUInt8 hb

theorem Text.lowBytes_append (s t : String) :
    Text.lowBytes (s ++ t) = Text.lowBytes s ++ Text.lowBytes t := by
  simp [Text.lowBytes]

namespace Machine

/-- All that has been done with a machine since its program was loaded into it. -/
inductive Reachable : Machine → Prop
  | load (p : Program) : Reachable (load p)
  | setProgram {m} (p : Program) : Reachable m → Reachable (m.setProgram p)
  | reset {m} : Reachable m → Reachable m.reset
  | step {m} : Reachable m → Reachable m.step.2
  | supply {m} (text : String) : Reachable m → Reachable (m.supply text)
  | run {m fuel o m'} : Reachable m → Machine.run fuel m = some (o, m') → Reachable m'
  | runOn {σ : Type} [InputSource σ] {m options fuel} {source : σ} {fin} : Reachable m →
      Machine.runOn options fuel m source = some fin → Reachable fin.machine

variable {m : Machine}

theorem output_step (m : Machine) :
    m.step.2.output = m.output ∨ m.step.2.output = m.output.push (Char.ofUInt8 m.value) := by
  apply preserves_step (P := fun k => k.output = m.output ∨
    k.output = m.output.push (Char.ofUInt8 m.value)) id _ (.inl rfl)
  intro m' he
  rw [he.output_eq]
  split
  · exact .inr rfl
  · exact .inl rfl

theorem exists_output_step (m : Machine) : ∃ t, m.step.2.output = m.output ++ t := by
  rcases m.output_step with h | h
  · exact ⟨"", by rw [h, String.append_empty]⟩
  · exact ⟨String.singleton (Char.ofUInt8 m.value), by rw [h, String.push_eq_append]⟩

@[simp] theorem output_finish (m : Machine) : m.finish.2.output = m.output := by
  rw [finish]
  split <;> rfl

theorem isBytes_step (h : Text.IsBytes m.output) : Text.IsBytes m.step.2.output := by
  rcases m.output_step with hs | hs
  · rwa [hs]
  · rw [hs]
    exact Text.isBytes_push h m.value

end Machine

section Runs

variable {σ : Type} [InputSource σ] {options : RunOptions} {r r₁ : Run σ} {ms : List Machine}

theorem Run.Course.preserves {P : Machine → Prop} (hstep : ∀ m, P m → P m.step.2)
    (hsupply : ∀ m text, P m → P (m.supply text)) (h : Course options r ms r₁)
    (hr : P r.machine) : P r₁.machine := by
  induction h with
  | start => exact hr
  | executed _ ht ih =>
    have := hstep _ ih
    rwa [(turn_executed ht).1] at this
  | refilled _ ht ih =>
    rw [(turn_refilled ht).2.1]
    exact hsupply _ _ ih

theorem Run.preserves_of_ended {P : Machine → Prop} (hstep : ∀ m, P m → P m.step.2)
    (hfinish : ∀ m, P m → P m.finish.2) {result : Except Error RunReport}
    (h : r.turn options = (.ended result, r₁)) (hr : P r.machine) : P r₁.machine := by
  rcases ended_cases h with ⟨-, -, rfl⟩ | ⟨_, s, hs, -, rfl, -⟩ | ⟨-, -, rfl⟩
  · exact hr
  · have := hstep _ hr
    rwa [Machine.step_eq_of_blocked hs] at this
  · exact hfinish _ hr

theorem Machine.preserves_runOn {P : Machine → Prop} (hstep : ∀ m, P m → P m.step.2)
    (hsupply : ∀ m text, P m → P (m.supply text)) (hfinish : ∀ m, P m → P m.finish.2)
    {m : Machine} {source : σ} {fuel : Nat} {fin : FinishedRun σ}
    (h : m.runOn options fuel source = some fin) (hm : P m) : P fin.machine := by
  obtain ⟨ms, h⟩ := Run.exists_runsTo h
  obtain ⟨r₁, result, r₂, hc, ht, rfl⟩ := Run.runsTo_iff.1 h
  exact Run.preserves_of_ended hstep hfinish ht (hc.preserves hstep hsupply hm)

theorem Run.output_of_ended {result : Except Error RunReport}
    (h : r.turn options = (.ended result, r₁)) : r₁.machine.output = r.machine.output := by
  rcases ended_cases h with ⟨-, -, rfl⟩ | ⟨_, s, -, -, rfl, -⟩ | ⟨-, -, rfl⟩
  · rfl
  · rfl
  · exact r.machine.output_finish

end Runs

/-- What holds of every machine that starts and is preserved by all that can be done with a
machine holds of every machine that can be reached. -/
theorem Machine.Reachable.preserves {P : Machine → Prop} (hload : ∀ p, P (Machine.load p))
    (hset : ∀ m p, P m → P (m.setProgram p)) (hstep : ∀ m, P m → P m.step.2)
    (hsupply : ∀ m text, P m → P (m.supply text)) (hfinish : ∀ m, P m → P m.finish.2)
    {m : Machine} (h : m.Reachable) : P m := by
  induction h with
  | load p => exact hload p
  | setProgram p _ ih => exact hset _ p ih
  | reset _ _ => exact hload _
  | step _ ih => exact hstep _ ih
  | supply text _ ih => exact hsupply _ text ih
  | run _ hr ih => exact preserves_run hstep (fun m hm _ => hfinish _ (hstep m hm)) hr ih
  | runOn _ hr ih => exact preserves_runOn hstep hsupply hfinish hr ih

theorem Machine.Reachable.isBytes {m : Machine} (h : m.Reachable) : Text.IsBytes m.output := by
  apply h.preserves (P := fun m => Text.IsBytes m.output)
  · exact fun p => Text.isBytes_empty
  · exact fun m p hm => hm
  · exact fun m hm => isBytes_step hm
  · exact fun m text hm => hm
  · intro m hm
    rwa [output_finish]

end Brainfuck
