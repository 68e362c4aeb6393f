import Brainfuck.Proofs.Output.Taken

/-!
# Output that is sent again

A forwarder counts a part of the output as written when all of it was taken, so what a write takes
before it fails is not counted. As long as this does not happen the bytes taken are the output from
the front, each once. Once it has happened they are so only until something is written again: then
what was taken before is sent a second time.
-/

namespace Brainfuck

/-- The bytes that were taken are those of the part of an output that counts as written. -/
def Forwarder.Covers {ω : Type} (f : Forwarder (RecordedWriter ω)) (output : String) : Prop :=
  ∃ u t, output = u ++ t ∧ f.written = u.rawEndPos ∧ f.writer.taken = Text.lowBytes u

namespace Forwarder

variable {ω : Type} {f : Forwarder (RecordedWriter ω)} {m : Machine} {output : String}

theorem covers_new (w : ω) (output : String) :
    Covers (⟨⟨w, #[]⟩, 0⟩ : Forwarder (RecordedWriter ω)) output :=
  ⟨"", output, by simp, rfl, by simp [RecordedWriter.taken, Text.lowBytes]⟩

theorem Covers.append (h : f.Covers output) (more : String) : f.Covers (output ++ more) := by
  obtain ⟨u, t, rfl, hw, ht⟩ := h
  exact ⟨u, t ++ more, String.append_assoc, hw, ht⟩

theorem Covers.step (h : f.Covers m.output) : f.Covers m.step.2.output := by
  obtain ⟨t, ht⟩ := m.exists_output_step
  rw [ht]
  exact h.append t

theorem Covers.taken_prefix (h : f.Covers output) : f.writer.taken <+: Text.lowBytes output := by
  obtain ⟨u, t, rfl, -, ht⟩ := h
  rw [ht, Text.lowBytes_append]
  exact List.prefix_append _ _

end Forwarder

variable {ω σ : Type} [ByteWriter ω] [InputSource σ]

/-- What a forwarder sends of the output of this machine is taken in part, and then fails. -/
def Forwarder.Torn (f : Forwarder (RecordedWriter ω)) (m : Machine) : Prop :=
  (∃ cause, (f.send m).1 = .error cause) ∧ (f.send m).2.writer.taken ≠ f.writer.taken

/-- What becomes of a machine and a forwarding source by steps, supplies of input, flushes and
requests, if the forwarder and the machine are as they may be at each flush. -/
inductive Forwards (may : Forwarder (RecordedWriter ω) → Machine → Prop) (m : Machine)
    (s : ForwardingSource (RecordedWriter ω) σ) :
    Machine → ForwardingSource (RecordedWriter ω) σ → Prop
  | start : Forwards may m s m s
  | step {m' s'} : Forwards may m s m' s' → Forwards may m s m'.step.2 s'
  | supply {m' s'} (text : String) : Forwards may m s m' s' → Forwards may m s (m'.supply text) s'
  | flush {m' s'} : Forwards may m s m' s' → may s'.forwarder m' →
      Forwards may m s m' { s' with forwarder := (s'.forwarder.flush m').2 }
  | nextChunk {m' s'} : Forwards may m s m' s' → may s'.forwarder m' →
      Forwards may m s m' (InputSource.nextChunk s' m').2

variable {f : Forwarder (RecordedWriter ω)} {m m' : Machine}
  {s s' : ForwardingSource (RecordedWriter ω) σ}

theorem ForwardingSource.forwarder_nextChunk (s : ForwardingSource (RecordedWriter ω) σ)
    (m : Machine) : (InputSource.nextChunk s m).2.forwarder = (s.forwarder.flush m).2 := by
  rcases hf : s.forwarder.flush m with ⟨e | ⟨⟩, f⟩ <;> simp [InputSource.nextChunk, hf]

namespace Forwarder

theorem Covers.taken_prefix_flush (h : f.Covers m.output) :
    (f.flush m).2.writer.taken <+: Text.lowBytes m.output := by
  obtain ⟨u, t, hout, hw, ht⟩ := h
  obtain ⟨part, hpart, htaken, -⟩ := exists_taken_send hout hw
  rw [(f.flush_eq_send m).1, htaken, ht, hout, Text.lowBytes_append]
  exact (List.prefix_append_right_inj _).2 hpart

theorem Covers.taken_flush_of_ok (h : f.Covers m.output) (hok : (f.send m).1 = .ok ()) :
    (f.flush m).2.writer.taken = Text.lowBytes m.output := by
  obtain ⟨u, t, hout, hw, ht⟩ := h
  obtain ⟨part, -, htaken, ⟨⟨cause, hfail⟩, -⟩ | ⟨-, rfl, -⟩⟩ := exists_taken_send hout hw
  · simp [hok] at hfail
  · rw [(f.flush_eq_send m).1, htaken, ht, hout, Text.lowBytes_append]

theorem Covers.flush (h : f.Covers m.output) (htorn : ¬ f.Torn m) :
    (f.flush m).2.Covers m.output := by
  obtain ⟨u, t, hout, hw, ht⟩ := h
  obtain ⟨part, -, htaken, ⟨hfail, hsame⟩ | ⟨-, rfl, hall⟩⟩ := exists_taken_send hout hw
  · have hnone : (f.send m).2.writer.taken = f.writer.taken :=
      Classical.not_not.1 fun hne => htorn ⟨hfail, hne⟩
    refine ⟨u, t, hout, ?_, ?_⟩
    · rw [(f.flush_eq_send m).2, hsame]
    · rw [(f.flush_eq_send m).1, hnone, ht]
  · refine ⟨m.output, "", String.append_empty.symm, ?_, ?_⟩
    · rw [(f.flush_eq_send m).2, hall]
    · rw [(f.flush_eq_send m).1, htaken, ht, hout, Text.lowBytes_append]

/-- After a torn send, all that is written next is more than the output. -/
theorem Covers.not_prefix_of_torn (h : f.Covers m.output) (htorn : f.Torn m) {more : String}
    (hmore : m'.output = m.output ++ more) (hok : ((f.flush m).2.send m').1 = .ok ()) :
    ¬ ((f.flush m).2.flush m').2.writer.taken <+: Text.lowBytes m'.output := by
  obtain ⟨u, t, hout, hw, ht⟩ := h
  obtain ⟨⟨cause, hfail⟩, hne⟩ := htorn
  obtain ⟨part, -, htaken, ⟨-, hsame⟩ | ⟨hsent, -⟩⟩ := exists_taken_send hout hw
  · have hpart : part ≠ [] := by
      rintro rfl
      exact hne (htaken.trans (List.append_nil _))
    have hout' : m'.output = u ++ (t ++ more) := by rw [hmore, hout, String.append_assoc]
    have hw' : (f.flush m).2.written = u.rawEndPos := by rw [(f.flush_eq_send m).2, hsame]
    obtain ⟨part', -, htaken', ⟨⟨cause', hfail'⟩, -⟩ | ⟨-, rfl, -⟩⟩ :=
      exists_taken_send hout' hw'
    · simp [hok] at hfail'
    · intro hprefix
      have hle := hprefix.length_le
      rw [((f.flush m).2.flush_eq_send m').1, htaken', (f.flush_eq_send m).1, htaken, ht,
        hout'] at hle
      simp only [Text.lowBytes_append, List.length_append] at hle
      have hpos := List.length_pos_iff.2 hpart
      omega
  · simp [hfail] at hsent

end Forwarder

theorem Forwards.covers {may : Forwarder (RecordedWriter ω) → Machine → Prop}
    (hmay : ∀ f m, may f m → ¬ f.Torn m) (h : Forwards may m s m' s')
    (hs : s.forwarder.Covers m.output) : s'.forwarder.Covers m'.output := by
  induction h with
  | start => exact hs
  | step _ ih => exact ih.step
  | supply text _ ih => exact ih
  | flush _ hm ih => exact ih.flush (hmay _ _ hm)
  | nextChunk _ hm ih =>
    rw [ForwardingSource.forwarder_nextChunk]
    exact ih.flush (hmay _ _ hm)

theorem Machine.Pass.exists_output (h : m.Pass m') : ∃ more, m'.output = m.output ++ more := by
  refine h.preserves (P := fun k => ∃ more, k.output = m.output ++ more) ?_ ?_ ⟨"", by simp⟩
  · rintro k ⟨more, hk⟩
    obtain ⟨t, ht⟩ := k.exists_output_step
    exact ⟨more ++ t, by rw [ht, hk, String.append_assoc]⟩
  · exact fun k text hk => hk

/-- As long as no send is torn, the bytes taken are the output from the front, each once, and so
they are after any flush that comes next. If that one is torn, then the next send that does not
fail, however far the machine has gone on, sends again what was taken. -/
theorem taken_prefix_until_torn {w : ω} {source : σ}
    (h : Forwards (fun f m => ¬ f.Torn m) m ⟨⟨⟨w, #[]⟩, 0⟩, source⟩ m' s') :
    s'.forwarder.writer.taken <+: Text.lowBytes m'.output ∧
    (s'.forwarder.flush m').2.writer.taken <+: Text.lowBytes m'.output ∧
    (s'.forwarder.Torn m' → ∀ k, m'.Pass k → ((s'.forwarder.flush m').2.send k).1 = .ok () →
      ¬ ((s'.forwarder.flush m').2.flush k).2.writer.taken <+: Text.lowBytes k.output) := by
  have hcovers := h.covers (fun f m hm => hm) (Forwarder.covers_new w m.output)
  refine ⟨hcovers.taken_prefix, hcovers.taken_prefix_flush, fun htorn k hk hok => ?_⟩
  obtain ⟨more, hmore⟩ := hk.exists_output
  exact hcovers.not_prefix_of_torn htorn hmore hok

/-- A writer whose first writes are answered as planned, and that takes everything from then on. -/
structure PlannedWriter where
  plan : List (Except String Nat)

instance : ByteWriter PlannedWriter where
  write w bytes :=
    match w.plan with
    | [] => (.ok bytes.length, w)
    | answer :: plan => (answer, ⟨plan⟩)
  flush w := (.ok (), w)

/-- A writer that fails at first, without having taken anything, and works from then on. -/
theorem taken_prefix_until_torn_late :
    ∃ m s, Forwards (fun f m => ¬ f.Torn m) (Machine.load ⟨#['+', '.']⟩)
        (⟨⟨⟨⟨[.error "busy"]⟩, #[]⟩, 0⟩, {}⟩ :
          ForwardingSource (RecordedWriter PlannedWriter) Script) m s ∧
      (s.forwarder.flush m).2.writer.taken <+: Text.lowBytes m.output ∧
      (s.forwarder.flush m).2.writer.taken = [1] := by
  let f : Forwarder (RecordedWriter PlannedWriter) := ⟨⟨⟨[.error "busy"]⟩, #[]⟩, 0⟩
  have hsteps : ∃ m, Forwards (fun f m => ¬ f.Torn m) (Machine.load ⟨#['+', '.']⟩)
      (⟨f, {}⟩ : ForwardingSource (RecordedWriter PlannedWriter) Script) m ⟨f, {}⟩ ∧
      m.output = "\x01" := ⟨_, .step (.step .start), rfl⟩
  obtain ⟨m, hsteps, hout⟩ := hsteps
  have hbyte : '\x01'.toUInt8 = 1 := rfl
  have hfirst : f.send m = (.error "busy", ⟨⟨⟨[]⟩, #[.writeFailed]⟩, 0⟩) := by
    simp [f, Forwarder.send, Forwarder.pending, hout, Text.lowBytes, writeAll, ByteWriter.write]
  have htorn : ¬ f.Torn m := fun h => h.2 (by rw [hfirst]; rfl)
  have hflush : (f.flush m).2 = ⟨⟨⟨[]⟩, #[.writeFailed]⟩, 0⟩ := by
    simp [Forwarder.flush, hfirst]
  have hpath := Forwards.flush hsteps htorn
  refine ⟨m, _, hpath, (taken_prefix_until_torn hpath).2.1, ?_⟩
  rw [(Forwarder.flush_eq_send _ _).1, hflush]
  simp [Forwarder.send, Forwarder.pending, hout, Text.lowBytes, writeAll, ByteWriter.write,
    RecordedWriter.taken, WriterEvent.taken, hbyte]

/-- A writer that takes one of two bytes before it fails, and is then offered both again. -/
theorem not_taken_prefix_of_torn :
    ¬ ∀ (m : Machine) (s : ForwardingSource (RecordedWriter PlannedWriter) Script),
      Forwards (fun _ _ => True) (Machine.load ⟨#['+', '.', '+', '.']⟩)
        ⟨⟨⟨⟨[.ok 1, .error "closed"]⟩, #[]⟩, 0⟩, {}⟩ m s →
      s.forwarder.writer.taken <+: Text.lowBytes m.output := by
  intro h
  let f : Forwarder (RecordedWriter PlannedWriter) := ⟨⟨⟨[.ok 1, .error "closed"]⟩, #[]⟩, 0⟩
  have hsteps : ∃ m, Forwards (fun _ _ => True) (Machine.load ⟨#['+', '.', '+', '.']⟩)
      (⟨f, {}⟩ : ForwardingSource (RecordedWriter PlannedWriter) Script) m ⟨f, {}⟩ ∧
      m.output = "\x01\x02" := ⟨_, .step (.step (.step (.step .start))), rfl⟩
  obtain ⟨m, hsteps, hout⟩ := hsteps
  have hbytes : '\x01'.toUInt8 = 1 ∧ '\x02'.toUInt8 = 2 := ⟨rfl, rfl⟩
  have hfirst : f.send m = (.error "closed", ⟨⟨⟨[]⟩, #[.wrote [1], .writeFailed]⟩, 0⟩) := by
    simp [f, Forwarder.send, Forwarder.pending, hout, Text.lowBytes, writeAll, ByteWriter.write,
      hbytes]
  have hflush : (f.flush m).2 = ⟨⟨⟨[]⟩, #[.wrote [1], .writeFailed]⟩, 0⟩ := by
    simp [Forwarder.flush, hfirst]
  have hsecond : ((f.flush m).2.flush m).2.writer.taken = [1, 1, 2] := by
    rw [(Forwarder.flush_eq_send _ _).1, hflush]
    simp [Forwarder.send, Forwarder.pending, hout, Text.lowBytes, writeAll, ByteWriter.write,
      RecordedWriter.taken, WriterEvent.taken, hbytes]
  have hprefix := h m _ (.flush (.flush hsteps trivial) trivial)
  rw [hsecond, hout] at hprefix
  exact absurd hprefix (by decide)

end Brainfuck
