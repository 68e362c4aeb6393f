import Brainfuck.Proofs.Output.Taken
import Brainfuck.Proofs.Run.Resume

/-!
# Forwarding to a buffer

A buffer takes all that it is offered. A run that forwards its output to a buffer is therefore the
run on the source behind the forwarder, and after one more flush the buffer holds what the machine
printed: the value of the active cell for each dot that was executed.
-/

namespace Brainfuck

variable {σ : Type} [InputSource σ] {options : RunOptions} {m m' : Machine} {t : Transcript}
  {f : Forwarder ByteBuffer} {output : String}

/-! ### What is printed -/

/-- The bytes that the executed steps printed. -/
def Transcript.printed (t : Transcript) : List UInt8 :=
  t.executed.filterMap fun m => if m.current? = some '.' then some m.value else none

theorem Transcript.printed_append (t t' : Transcript) :
    (t ++ t').printed = t.printed ++ t'.printed := by
  simp [printed]

theorem Text.lowBytes_push (s : String) (b : UInt8) :
    Text.lowBytes (s.push (Char.ofUInt8 b)) = Text.lowBytes s ++ [b] := by
  have hb : (Char.ofUInt8 b).toUInt8 = b := UInt8.toUInt8_toUInt32 b
  simp [Text.lowBytes, hb]

namespace Machine

theorem lowBytes_of_step_executed (h : m.step = (.executed, m')) :
    Text.lowBytes m'.output =
      Text.lowBytes m.output ++ (⟨[m], []⟩ : Transcript).printed := by
  rw [(executes_of_step h).output_eq]
  by_cases hdot : m.current? = some '.'
  · simp [Transcript.printed, hdot, Text.lowBytes_push]
  · simp [Transcript.printed, hdot]

end Machine

theorem Run.Ends.printed {r : Run σ} {fin : FinishedRun σ} (h : Ends options r t fin) :
    Text.lowBytes fin.machine.output = Text.lowBytes r.machine.output ++ t.printed := by
  induction h with
  | executed ht _ ih =>
    rw [ih, Machine.lowBytes_of_step_executed (turn_executed ht).1, Transcript.printed_append,
      List.append_assoc]
  | refilled ht _ ih =>
    rw [ih, (turn_refilled ht).2.1, Transcript.printed_append]
    rfl
  | ended ht => simp [output_of_ended ht, Transcript.printed]

/-! ### What a buffer holds -/

theorem ByteBuffer.writeAll_eq (w : ByteBuffer) (bytes : List UInt8) :
    writeAll w bytes = (.ok (), ⟨w.bytes.appendList bytes⟩) := by
  cases bytes with
  | nil => simp [writeAll]
  | cons b rest => simp [writeAll, ByteWriter.write]

/-- A buffer holds the part of an output that counts as written. -/
def Forwarder.Mirrors (f : Forwarder ByteBuffer) (output : String) : Prop :=
  ∃ u v, output = u ++ v ∧ f.written = u.rawEndPos ∧ f.writer.bytes.toList = Text.lowBytes u

namespace Forwarder

theorem mirrors_new (output : String) : Mirrors { writer := {} } output :=
  ⟨"", output, by simp, rfl, rfl⟩

theorem Mirrors.append (h : f.Mirrors output) (t : String) : f.Mirrors (output ++ t) := by
  obtain ⟨u, v, hout, hw, hbytes⟩ := h
  exact ⟨u, v ++ t, by rw [hout, String.append_assoc], hw, hbytes⟩

theorem flush_buffer (f : Forwarder ByteBuffer) (m : Machine) :
    f.flush m = (.ok (), ⟨⟨f.writer.bytes.appendList (Text.lowBytes (f.pending m.output))⟩,
      if f.pending m.output = "" then f.written else m.output.rawEndPos⟩) := by
  have hsend : f.send m =
      (.ok (), ⟨⟨f.writer.bytes.appendList (Text.lowBytes (f.pending m.output))⟩,
        if f.pending m.output = "" then f.written else m.output.rawEndPos⟩) := by
    by_cases hempty : f.pending m.output = ""
    · simp [send, hempty, Text.lowBytes]
    · simp [send, hempty, ByteBuffer.writeAll_eq]
  exact flush_of_ok hsend rfl

theorem flush_of_flush (f : Forwarder ByteBuffer) (m : Machine) (w : ByteBuffer) :
    flush ⟨w, (f.flush m).2.written⟩ m = (.ok (), ⟨w, (f.flush m).2.written⟩) := by
  have hpending : pending ⟨w, (f.flush m).2.written⟩ m.output = "" := by
    rw [flush_buffer, pending]
    split
    · assumption
    · rw [Text.from?_rawEndPos, Option.getD_some]
  rw [flush_buffer, if_pos hpending, hpending]
  simp [Text.lowBytes]

theorem Mirrors.flush (h : f.Mirrors m.output) :
    (f.flush m).2.Mirrors m.output ∧
      (f.flush m).2.writer.bytes.toList = Text.lowBytes m.output := by
  obtain ⟨u, v, hout, hw, hbytes⟩ := h
  have hall : (f.flush m).2.writer.bytes.toList = Text.lowBytes m.output := by
    rw [flush_buffer, pending_eq hout hw, hout, Text.lowBytes_append, ← hbytes]
    simp
  refine ⟨⟨m.output, "", String.append_empty.symm, ?_, hall⟩, hall⟩
  rw [flush_buffer, pending_eq hout hw]
  split
  · rename_i hempty
    rw [hw, hout, hempty, String.append_empty]
  · rfl

end Forwarder

/-! ### Runs that forward to a buffer -/

/-- A run that forwards to a buffer does what the run on the source behind it does. -/
theorem nextChunk_buffer (s : ForwardingSource ByteBuffer σ) (m : Machine) :
    InputSource.nextChunk s m = ((InputSource.nextChunk s.source m).1,
      ⟨(s.forwarder.flush m).2, (InputSource.nextChunk s.source m).2⟩) := by
  simp [InputSource.nextChunk, Forwarder.flush_buffer]

namespace Run

variable {r r₁ : Run (ForwardingSource ByteBuffer σ)}
  {fin : FinishedRun (ForwardingSource ByteBuffer σ)}

theorem mirrors_turn (h : r.source.forwarder.Mirrors r.machine.output) (options : RunOptions) :
    (r.turn options).2.source.forwarder.Mirrors (r.turn options).2.machine.output := by
  apply preserves_turn (r := r) (P := fun m s => s.forwarder.Mirrors m.output) _ _ _ _ options h
  · intro m s hm
    obtain ⟨t, ht⟩ := m.exists_output_step
    rw [ht]
    exact hm.append t
  · intro m s hm
    rw [nextChunk_buffer]
    exact hm.flush.1
  · exact fun m s text hm => hm
  · intro m s hm
    rwa [Machine.output_finish]

theorem Ends.mirrors (h : Ends options r t fin)
    (hr : r.source.forwarder.Mirrors r.machine.output) :
    fin.source.forwarder.Mirrors fin.machine.output := by
  induction h with
  | executed ht _ ih =>
    have := mirrors_turn hr options
    rw [ht] at this
    exact ih this
  | refilled ht _ ih =>
    have := mirrors_turn hr options
    rw [ht] at this
    exact ih this
  | ended ht =>
    have := mirrors_turn hr options
    rwa [ht] at this

end Run

section

variable {source : σ} {fin : FinishedRun (ForwardingSource ByteBuffer σ)} {fin' : FinishedRun σ}

omit [InputSource σ] in
theorem FinishedRun.Prolongs.result_eq {limit : Nat} {place : ForwardingSource ByteBuffer σ → σ}
    (h : fin.Prolongs {} limit limit place fin') : fin'.result = fin.result := by
  obtain ⟨-, -, hresult⟩ := h
  rcases hlast : fin.result with e | report <;> rcases hwhole : fin'.result with e' | report'
  · rw [hlast, hwhole] at hresult
    rcases hresult with rfl | ⟨ip, rfl, rfl⟩ <;> rfl
  · simp [hlast, hwhole] at hresult
  · simp [hlast, hwhole] at hresult
  · simp_all

omit [InputSource σ] in
theorem Run.atLimit_after_source (r : Run (ForwardingSource ByteBuffer σ)) :
    (r.after {} ForwardingSource.source).atLimit options = r.atLimit options := by
  simp [after, atLimit]

theorem nextChunk_source (s : ForwardingSource ByteBuffer σ) (m : Machine) :
    InputSource.nextChunk s.source m =
      ((InputSource.nextChunk s m).1, (InputSource.nextChunk s m).2.source) := by
  rw [nextChunk_buffer]

theorem Machine.Performs.of_forwarding
    (h : m.Performs options (⟨f, source⟩ : ForwardingSource ByteBuffer σ) t fin) :
    m.Performs options source t ⟨fin.result, fin.machine, fin.source.source⟩ := by
  rw [Run.performs_iff] at h ⊢
  obtain ⟨⟨result, m', s'⟩, hends, hp⟩ := h.after nextChunk_source Run.atLimit_after_source
  have hresult := hp.result_eq
  obtain ⟨rfl, rfl, -⟩ := hp
  obtain rfl : result = fin.result := hresult
  exact hends

theorem Machine.Performs.forwarding (f : Forwarder ByteBuffer)
    (h : m.Performs options source t fin') :
    ∃ f', m.Performs options (⟨f, source⟩ : ForwardingSource ByteBuffer σ) t
      ⟨fin'.result, fin'.machine, ⟨f', fin'.source⟩⟩ := by
  rw [Run.performs_iff] at h
  obtain ⟨⟨result, m', ⟨f', s'⟩⟩, hends, hp⟩ := Run.exists_ends_of_after
    (r := ⟨m, ⟨f, source⟩, {}⟩) nextChunk_source Run.atLimit_after_source h
  have hresult := hp.result_eq
  obtain ⟨hmachine, hsource, -⟩ := hp
  rw [← Run.performs_iff] at hends
  refine ⟨f', ?_⟩
  rw [hresult, hmachine, hsource]
  exact hends

end

end Brainfuck
