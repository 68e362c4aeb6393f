import Brainfuck.Proofs.Output.Resend

/-!
# Prompts

A run on a forwarding source asks the source behind it only after all that the machine has printed
is taken by the writer and the writer was flushed. For a writer that never fails, nothing is lost or
sent twice, and one flush after the run takes what is left.
-/

namespace Brainfuck

section Writers

variable {ω : Type} [ByteWriter ω]

/-- A writer that never fails: whenever it is offered something it takes some of it, and flushing
it works. -/
def ByteWriter.Reliable (w : ω) : Prop :=
  ∃ P : ω → Prop, P w ∧ ∀ w, P w →
    (∀ b bytes, ∃ n w', ByteWriter.write w (b :: bytes) = (.ok (n + 1), w') ∧
      n ≤ bytes.length ∧ P w') ∧
    ∃ w', ByteWriter.flush w = (.ok (), w') ∧ P w'

theorem ByteWriter.Reliable.write {w : ω} (h : Reliable w) (b : UInt8) (bytes : List UInt8) :
    ∃ n w', ByteWriter.write w (b :: bytes) = (.ok (n + 1), w') ∧ Reliable w' := by
  obtain ⟨P, hw, hP⟩ := h
  obtain ⟨n, w', hwrite, -, hw'⟩ := (hP w hw).1 b bytes
  exact ⟨n, w', hwrite, P, hw', hP⟩

theorem ByteWriter.Reliable.flush {w : ω} (h : Reliable w) :
    ∃ w', ByteWriter.flush w = (.ok (), w') ∧ Reliable w' := by
  obtain ⟨P, hw, hP⟩ := h
  obtain ⟨w', hflush, hw'⟩ := (hP w hw).2
  exact ⟨w', hflush, P, hw', hP⟩

theorem RecordedWriter.writeAll_of_reliable {w : RecordedWriter ω}
    (h : ByteWriter.Reliable w.writer) (bytes : List UInt8) :
    ∃ w' : RecordedWriter ω, writeAll w bytes = (.ok (), w') ∧ ByteWriter.Reliable w'.writer := by
  induction hlen : bytes.length using Nat.strong_induction_on generalizing w bytes with
  | _ n ih =>
    cases bytes with
    | nil => exact ⟨w, by rw [writeAll], h⟩
    | cons b rest =>
      obtain ⟨k, inner, hwrite, hinner⟩ := h.write b rest
      have hw : ByteWriter.write w (b :: rest) =
          (.ok (k + 1), ⟨inner, w.events.push (.wrote ((b :: rest).take (k + 1)))⟩) := by
        simp only [ByteWriter.write, hwrite]
      have hless : (rest.drop k).length < n := by
        rw [← hlen, List.length_drop, List.length_cons]
        omega
      obtain ⟨w', hall, hw'⟩ := ih _ hless (w := ⟨inner, _⟩) hinner (rest.drop k) rfl
      exact ⟨w', by rw [writeAll, hw]; exact hall, hw'⟩

theorem Forwarder.flush_of_reliable {f : Forwarder (RecordedWriter ω)}
    (h : ByteWriter.Reliable f.writer.writer) (m : Machine) :
    (f.send m).1 = .ok () ∧ ∃ f', f.flush m = (.ok (), f') ∧
      ByteWriter.Reliable f'.writer.writer ∧ f'.writer.events.back? = some .flushed := by
  have hsend : ∃ f₁, f.send m = (.ok (), f₁) ∧ ByteWriter.Reliable f₁.writer.writer := by
    by_cases hempty : (f.pending m.output).isEmpty
    · exact ⟨f, by simp [send, hempty], h⟩
    · obtain ⟨w, hall, hw⟩ :=
        RecordedWriter.writeAll_of_reliable h (Text.lowBytes (f.pending m.output))
      exact ⟨⟨w, m.output.rawEndPos⟩, by simp [send, hempty, hall], hw⟩
  obtain ⟨f₁, hsend, h₁⟩ := hsend
  obtain ⟨inner, hflush, hinner⟩ := h₁.flush
  have hw : ByteWriter.flush f₁.writer = (.ok (), ⟨inner, f₁.writer.events.push .flushed⟩) := by
    simp only [ByteWriter.flush, hflush]
  exact ⟨by rw [hsend], _, flush_of_ok hsend hw, hinner, by simp⟩

end Writers

namespace Run

variable {ω σ : Type} [ByteWriter ω] {options : RunOptions}

/-- The machine that a turn shows to the source behind a forwarder to ask it for input, and the
forwarder at that moment, if the turn gets to ask it. -/
def request? (options : RunOptions) (r : Run (ForwardingSource ω σ)) :
    Option (Machine × Forwarder ω) :=
  if r.atLimit options then none
  else
    match r.machine.step with
    | (.blocked, m) =>
      match r.source.forwarder.flush m with
      | (.ok (), f) => some (m, f)
      | (.error _, _) => none
    | _ => none

variable {r r₁ : Run (ForwardingSource ω σ)} {m : Machine} {f : Forwarder ω}

theorem request?_eq_some (h : r.request? options = some (m, f)) :
    r.atLimit options = false ∧ r.machine.step = (.blocked, m) ∧
      r.source.forwarder.flush m = (.ok (), f) := by
  cases hl : r.atLimit options with
  | true => simp [request?, hl] at h
  | false =>
    rcases hs : r.machine.step with ⟨_ | _ | _, m'⟩
    · simp [request?, hl, hs] at h
    · rcases hf : r.source.forwarder.flush m' with ⟨e | ⟨⟩, f'⟩
      · simp [request?, hl, hs, hf] at h
      · simp only [request?, hl, hs, hf, Bool.false_eq_true, if_false, Option.some.injEq,
          Prod.mk.injEq] at h
        obtain ⟨rfl, rfl⟩ := h
        exact ⟨rfl, rfl, hf⟩
    · simp [request?, hl, hs] at h

variable [InputSource σ]

/-- A turn that asks the source behind the forwarder shows it that machine, and does nothing more
with the forwarder. -/
theorem source_turn_of_request? (h : r.request? options = some (m, f)) :
    (r.turn options).2.source = ⟨f, (InputSource.nextChunk r.source.source m).2⟩ := by
  obtain ⟨hl, hs, hf⟩ := request?_eq_some h
  have hnext : InputSource.nextChunk r.source m =
      ((InputSource.nextChunk r.source.source m).1,
        ⟨f, (InputSource.nextChunk r.source.source m).2⟩) := by
    simp [InputSource.nextChunk, hf]
  rcases hc : InputSource.nextChunk r.source.source m with ⟨e | _ | chunk, s⟩
  all_goals
    rw [hc] at hnext
    simp [turn, hl, hs, hnext]

theorem source_turn_of_request?_eq_none (h : r.request? options = none) :
    (r.turn options).2.source.source = r.source.source := by
  cases hl : r.atLimit options with
  | true => rw [turn_of_atLimit hl]
  | false =>
    rcases hs : r.machine.step with ⟨_ | _ | _, m⟩
    · rw [turn_of_step_executed hl hs]
    · rcases hf : r.source.forwarder.flush m with ⟨e | ⟨⟩, f⟩
      · simp [turn, hl, hs, InputSource.nextChunk, hf]
      · simp [request?, hl, hs, hf] at h
    · rw [turn_of_step_done hl (by rw [hs])]

end Run

section Prompts

variable {ω σ : Type} [ByteWriter ω] {options : RunOptions}
  {r r₁ : Run (ForwardingSource (RecordedWriter ω) σ)} {ms : List Machine}

/-- Up to here the machine has printed bytes, and those that count as written were taken by a writer
that does not fail. -/
structure Run.Forwarded (r : Run (ForwardingSource (RecordedWriter ω) σ)) : Prop where
  isBytes : Text.IsBytes r.machine.output
  covers : r.source.forwarder.Covers r.machine.output
  reliable : ByteWriter.Reliable r.source.forwarder.writer.writer

theorem Run.Forwarded.flush (h : r.Forwarded) {m : Machine} (hm : m.output = r.machine.output) :
    ∃ f, r.source.forwarder.flush m = (.ok (), f) ∧
      f.writer.taken.map Char.ofUInt8 = m.output.toList ∧
      f.writer.events.back? = some .flushed ∧ ByteWriter.Reliable f.writer.writer ∧
      f.Covers m.output := by
  have hcovers : r.source.forwarder.Covers m.output := hm ▸ h.covers
  obtain ⟨hok, f, hf, hreliable, hback⟩ := Forwarder.flush_of_reliable h.reliable m
  have htorn : ¬ r.source.forwarder.Torn m := by
    rintro ⟨⟨cause, hfail⟩, -⟩
    simp [hok] at hfail
  have htaken := hcovers.taken_flush_of_ok hok
  have hafter := hcovers.flush htorn
  rw [hf] at htaken hafter
  refine ⟨f, hf, ?_, hback, hreliable, hafter⟩
  rw [htaken, Text.map_lowBytes (hm ▸ h.isBytes)]

variable [InputSource σ]

/-- No turn loses a byte or sends one twice, be it the one that ends the run. -/
theorem Run.Forwarded.turn (h : r.Forwarded) (options : RunOptions) :
    (r.turn options).2.Forwarded := by
  have hturn := preserves_turn (r := r) (P := fun m s => Run.Forwarded ⟨m, s, {}⟩) ?_ ?_ ?_ ?_
    options ⟨h.isBytes, h.covers, h.reliable⟩
  · exact ⟨hturn.isBytes, hturn.covers, hturn.reliable⟩
  · exact fun m s hm => ⟨Machine.isBytes_step hm.isBytes, hm.covers.step, hm.reliable⟩
  · intro m s hm
    obtain ⟨f, hf, -, -, hreliable, hcovers⟩ := hm.flush rfl
    have hs : (InputSource.nextChunk s m).2.forwarder = f := by
      rw [ForwardingSource.forwarder_nextChunk, hf]
    exact ⟨hm.isBytes, hs ▸ hcovers, hs ▸ hreliable⟩
  · exact fun m s text hm => ⟨hm.isBytes, hm.covers, hm.reliable⟩
  · intro m s hm
    have hout := m.output_finish
    exact ⟨hout ▸ hm.isBytes, hout ▸ hm.covers, hm.reliable⟩

theorem Run.Course.forwarded (h : Course options r ms r₁) (hr : r.Forwarded) :
    r₁.Forwarded := by
  induction h with
  | start => exact hr
  | executed _ ht ih =>
    have := ih.turn options
    rwa [ht] at this
  | refilled _ ht ih =>
    have := ih.turn options
    rwa [ht] at this

/-- Whenever a turn of a run asks the source behind a forwarder, the machine waits, the writer has
taken what was printed so far, each character as one byte, once and in order, and was flushed after
that. After the run, however it ended, one flush more takes all that was printed. -/
theorem taken_before_requests {m : Machine} {w : ω} (hm : m.Reachable)
    (hw : ByteWriter.Reliable w) (options : RunOptions) (source : σ) :
    let start : ForwardingSource (RecordedWriter ω) σ := ⟨⟨⟨w, #[]⟩, 0⟩, source⟩
    (∀ ms r, Run.Course options ⟨m, start, {}⟩ ms r →
      (r.request? options = none → (r.turn options).2.source.source = r.source.source) ∧
      ∀ m' f, r.request? options = some (m', f) →
        (r.turn options).2.source = ⟨f, (InputSource.nextChunk r.source.source m').2⟩ ∧
        m'.blocked = true ∧ f.writer.taken.map Char.ofUInt8 = m'.output.toList ∧
        f.writer.events.back? = some .flushed) ∧
    ∀ fuel fin, m.runOn options fuel start = some fin →
      ∃ f, fin.source.forwarder.flush fin.machine = (.ok (), f) ∧
        f.writer.taken.map Char.ofUInt8 = fin.machine.output.toList := by
  intro start
  have hstart : Run.Forwarded ⟨m, start, {}⟩ :=
    ⟨hm.isBytes, Forwarder.covers_new w m.output, hw⟩
  refine ⟨fun ms r hc => ⟨Run.source_turn_of_request?_eq_none, fun m' f hr => ?_⟩,
    fun fuel fin hrun => ?_⟩
  · have hsource := Run.source_turn_of_request? hr
    obtain ⟨-, hs, hf⟩ := Run.request?_eq_some hr
    obtain ⟨-, rfl⟩ := Prod.mk.inj ((Machine.step_eq_of_blocked (by rw [hs])).symm.trans hs)
    obtain ⟨f', hf', htaken, hback, -⟩ := (hc.forwarded hstart).flush (m := _) rfl
    obtain rfl : f = f' := (Prod.mk.inj (hf.symm.trans hf')).2
    exact ⟨hsource, rfl, htaken, hback⟩
  · obtain ⟨ms, hrun⟩ := Run.exists_runsTo hrun
    obtain ⟨r₁, result, r₂, hc, ht, rfl⟩ := Run.runsTo_iff.1 hrun
    have hend := (hc.forwarded hstart).turn options
    rw [ht] at hend
    obtain ⟨f, hf, htaken, -⟩ := hend.flush rfl
    exact ⟨f, hf, htaken⟩

theorem ByteBuffer.reliable (w : ByteBuffer) : ByteWriter.Reliable w := by
  refine ⟨fun _ => True, trivial, fun w _ => ⟨fun b bytes => ?_, w, rfl, trivial⟩⟩
  exact ⟨bytes.length, _, rfl, Nat.le_refl _, trivial⟩

/-- A program that prints before it reads. -/
theorem taken_before_requests_prompt :
    let m := Machine.load ⟨#['+', '.', ',']⟩
    let start : ForwardingSource (RecordedWriter ByteBuffer) Script := ⟨⟨⟨{}, #[]⟩, 0⟩, ⟨["a"]⟩⟩
    ∃ ms r m' f, Run.Course ⟨5⟩ ⟨m, start, {}⟩ ms r ∧ r.request? ⟨5⟩ = some (m', f) ∧
      m'.blocked = true ∧ f.writer.taken.map Char.ofUInt8 = ['\x01'] ∧
      f.writer.events.back? = some .flushed := by
  intro m start
  have hcourse : ∃ ms r, Run.Course ⟨5⟩ ⟨m, start, {}⟩ ms r ∧ r.atLimit ⟨5⟩ = false ∧
      r.machine.output = "\x01" ∧ r.machine.step.1 = .blocked :=
    ⟨_, _, .executed (.executed .start rfl) rfl, rfl, rfl, rfl⟩
  obtain ⟨ms, r, hc, hl, hout, hs⟩ := hcourse
  have hstep := Machine.step_eq_of_blocked hs
  have hreliable := ByteBuffer.reliable r.source.forwarder.writer.writer
  obtain ⟨-, f, hf, -⟩ :=
    Forwarder.flush_of_reliable hreliable { r.machine with blocked := true }
  have hrequest : r.request? ⟨5⟩ = some ({ r.machine with blocked := true }, f) := by
    simp [Run.request?, hl, hstep, hf]
  have hm : m.Reachable := .load _
  have hspec := taken_before_requests hm (ByteBuffer.reliable {}) ⟨5⟩ (⟨["a"]⟩ : Script)
  obtain ⟨-, hblocked, htaken, hback⟩ := (hspec.1 ms r hc).2 _ f hrequest
  refine ⟨ms, r, _, f, hc, hrequest, hblocked, ?_, hback⟩
  rw [htaken]
  simp [hout]

end Prompts

end Brainfuck
